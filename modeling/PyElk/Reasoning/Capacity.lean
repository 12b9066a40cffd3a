import PyElk.Reasoning.ChainSuffixes
import PyElk.Reasoning.ConclusionBound

open Ordered

namespace PyElk

/-- An interning outcome whose table fits the ids, or the error of a full table. -/
def Interning.fit {ε α : Type} (full : ε) (outcome : Interning × α) : Except ε (Interning × α) :=
  if outcome.1.records.length ≤ U32_RESERVED then pure outcome else throw full

section

variable {ε α β : Type} {full : ε} {table : Interning}

/-- A table that only grows fits at its end if and only if it fits all along. -/
theorem Interning.fit_bind {first : Interning × α} {next : Interning × α → Except ε (Interning × β)}
    {last : Interning × β} (grown : first.1.records.length ≤ last.1.records.length)
    (continues : first.1.records.length ≤ U32_RESERVED → next first = Interning.fit full last) :
    (Interning.fit full first >>= next) = Interning.fit full last := by
  unfold fit
  by_cases room : first.1.records.length ≤ U32_RESERVED
  · rw [if_pos room]
    exact continues room
  · have crowded : ¬ last.1.records.length ≤ U32_RESERVED := fun late => room (grown.trans late)
    rw [if_neg room, if_neg crowded]
    rfl

theorem Interning.length_le_addLink {property : EntityId} {suffix : Option Nat} :
    table.records.length ≤ (table.addLink property suffix).1.records.length := by
  unfold addLink
  split
  · exact le_rfl
  · rw [List.length_append]
    exact Nat.le_add_right _ _

theorem Interning.length_le_addChain {chain : List EntityId} :
    table.records.length ≤ (table.addChain chain).1.records.length := by
  induction chain with
  | nil => exact le_rfl
  | cons property rest ih => exact ih.trans length_le_addLink

/-- Adding chains never shortens the table. -/
theorem Interning.length_le_addChains {chains : List (List EntityId)} :
    table.records.length ≤ (table.addChains chains).1.records.length := by
  induction chains generalizing table with
  | nil => exact le_rfl
  | cons chain rest ih => exact length_le_addChain.trans ih

/-- Below the capacity interning a link is adding it, if the table then still fits. -/
theorem Interning.internLink_eq (few : table.records.length ≤ U32_RESERVED) {property : EntityId}
    {suffix : Option Nat} :
    table.internLink full property suffix = Interning.fit full (table.addLink property suffix) := by
  unfold internLink fit addLink
  by_cases present : ⟨property, suffix⟩ ∈ table.records
  · rw [if_pos present, if_neg fun refused => refused.1 present, if_pos few]
  · rw [if_neg present, List.length_append, List.length_singleton]
    by_cases last : U32_RESERVED ≤ table.records.length
    · rw [if_pos ⟨present, last⟩, if_neg (by omega)]
    · rw [if_neg fun refused => last refused.2, if_pos (by omega)]

/-- A chain is interned unless its links overflow the table. -/
theorem Interning.intern_eq (few : table.records.length ≤ U32_RESERVED) {chain : List EntityId} :
    table.intern full chain = Interning.fit full (table.addChain chain) := by
  induction chain with
  | nil =>
    rw [intern, addChain, fit, if_pos few]
  | cons property rest ih =>
    rw [intern, ih, addChain]
    refine Interning.fit_bind length_le_addLink fun room => ?_
    dsimp only
    rw [internLink_eq room]
    unfold fit
    split
    · rfl
    · rfl

/-- Below the capacity interning all chains is adding them, if the table then still fits. -/
theorem Interning.internAll_eq (few : table.records.length ≤ U32_RESERVED) {chains : List (List EntityId)} :
    table.internAll full chains = Interning.fit full (table.addChains chains) := by
  induction chains generalizing table with
  | nil => rw [internAll, addChains, fit, if_pos few]
  | cons chain rest ih =>
    rw [internAll, intern_eq few, addChains]
    refine Interning.fit_bind length_le_addChains fun room => ?_
    dsimp only
    rw [ih room]
    unfold fit
    split
    · rfl
    · rfl

end

theorem length_chainUniverse {compiled : Tables} (valid : compiled.Valid) (noSuffix : Int) :
    (chainUniverse noSuffix compiled).records.length = (addCompiledChains compiled).1.records.length := by
  obtain ⟨distinct, _, members⟩ := (addCompiledChains_sound valid).1.final noSuffix
  have order : ((addCompiledChains compiled).1.finalOrder noSuffix).Perm
      (List.range (addCompiledChains compiled).1.records.length) := by
    refine (List.perm_ext_iff_of_nodup distinct List.nodup_range).mpr fun temporary => ?_
    rw [members, List.mem_range]
  rw [chainUniverse, Interning.finalRecords, List.length_map, order.length_eq, List.length_range]

/-- The chain table is built unless it overflows the ids. -/
theorem buildChainUniverse_eq {ε : Type} {full : ε} {compiled : Tables} (valid : compiled.Valid) (noSuffix : Int) :
    buildChainUniverse full noSuffix compiled =
      if (chainUniverse noSuffix compiled).records.length ≤ U32_RESERVED then pure (chainUniverse noSuffix compiled)
      else throw full := by
  have few : (⟨[], []⟩ : Interning).records.length ≤ U32_RESERVED := Nat.zero_le _
  rw [length_chainUniverse valid, buildChainUniverse, Interning.internAll_eq few]
  unfold Interning.fit
  by_cases room : (Interning.addChains ⟨[], []⟩ (singletonSequences compiled)).1.records.length ≤ U32_RESERVED
  · have later : Interning.internAll full (addSingletons compiled).1 compiled.propertyChains =
        Interning.fit full (addCompiledChains compiled) := Interning.internAll_eq room
    rw [if_pos room]
    change (Interning.internAll full (addSingletons compiled).1 compiled.propertyChains >>= _) = _
    rw [later, Interning.fit]
    split
    · rfl
    · rfl
  · have crowded : ¬ (addCompiledChains compiled).1.records.length ≤ U32_RESERVED :=
      fun late => room (Interning.length_le_addChains.trans late)
    rw [if_neg room, if_neg crowded]
    rfl

/-- Room for the ids of a property saturation. -/
structure Tables.Numbered (compiled : Tables) : Prop where
  chains : compiled.chainSuffixes.length < U32_RESERVED
  entities : compiled.entities.length < U32_RESERVED
  expressions : compiled.expressions.length < U32_RESERVED

section

variable {compiled : Tables} (valid : compiled.Valid)

include valid

theorem Tables.Numbered.few (numbered : compiled.Numbered) :
    (closeProperties compiled).chains.length ≤ U32_RESERVED :=
  (length_closeProperties_chains valid).trans_le numbered.chains.le

theorem closeProperties_chains_ne_nil : (closeProperties compiled).chains ≠ [] := by
  intro empty
  have top : compiled.entities[compiled.entityId .objectProperty OWL_TOP_OBJECT_PROPERTY_IRI]? =
      some ⟨.objectProperty, OWL_TOP_OBJECT_PROPERTY_IRI⟩ := valid.entityId_of (by simp [predefinedEntities])
  have entry := (closeProperties_spec valid).singleton ⟨_, top⟩
  rw [empty] at entry
  cases entry

/-- `saturate_properties` returns the closure if its ids have room, and raises otherwise. -/
theorem saturateProperties_ok {properties : PropertySaturation} :
    saturateProperties compiled = .ok properties ↔ properties = closeProperties compiled ∧ compiled.Numbered := by
  have nonempty := closeProperties_chains_ne_nil valid
  have chains : (closeProperties compiled).chains = (chainUniverse (-1) compiled).records := rfl
  have count := length_closeProperties_chains valid
  unfold saturateProperties
  rw [buildChainUniverse_eq valid]
  by_cases room : (chainUniverse (-1) compiled).records.length ≤ U32_RESERVED
  · rw [if_pos room]
    change (PropertySaturation.checkSizes (closeProperties compiled) compiled >>= fun _ =>
      Except.ok (closeProperties compiled)) = _ ↔ _
    unfold PropertySaturation.checkSizes
    rw [if_neg nonempty]
    split
    · rename_i full
      exact ⟨fun same => (nomatch same),
        fun ⟨_, numbered⟩ => absurd full (Nat.not_le.mpr (count.trans_lt numbered.chains))⟩
    · rename_i fewChains
      split
      · rename_i full
        exact ⟨fun same => (nomatch same), fun ⟨_, numbered⟩ => absurd full (Nat.not_le.mpr numbered.entities)⟩
      · rename_i fewEntities
        split
        · rename_i full
          exact ⟨fun same => (nomatch same), fun ⟨_, numbered⟩ => absurd full (Nat.not_le.mpr numbered.expressions)⟩
        · rename_i fewExpressions
          refine ⟨fun same => ?_, fun ⟨same, _⟩ => same ▸ rfl⟩
          cases same
          exact ⟨rfl, count.symm.trans_lt (Nat.not_le.mp fewChains), Nat.not_le.mp fewEntities,
            Nat.not_le.mp fewExpressions⟩
  · rw [if_neg room]
    refine ⟨fun same => (nomatch same), fun ⟨_, numbered⟩ => absurd ?_ room⟩
    rw [← chains]
    exact numbered.few valid

end

end PyElk
