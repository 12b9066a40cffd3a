import Mathlib.Data.Finset.Card
import PyElk.Reasoning.PropertySpec

namespace PyElk

/-- The sequences with a property of their own: every object property and every
nonempty suffix of a compiled chain. -/
def Tables.ChainSuffix (compiled : Tables) (spelled : List EntityId) : Prop :=
  (∃ property, compiled.EntityOf property .objectProperty ∧ spelled = [property]) ∨
    ∃ chain ∈ compiled.propertyChains, spelled ≠ [] ∧ spelled <:+ chain

/-- The sequences with a property of their own, each listed once. -/
def Tables.chainSuffixes (compiled : Tables) : List (List EntityId) :=
  (singletonSequences compiled ++ compiled.propertyChains.flatMap fun chain => chain.tails.filter (· ≠ [])).dedup

theorem Tables.mem_chainSuffixes {compiled : Tables} {spelled : List EntityId} :
    spelled ∈ compiled.chainSuffixes ↔ compiled.ChainSuffix spelled := by
  unfold chainSuffixes ChainSuffix singletonSequences
  rw [List.mem_dedup, List.mem_append, List.mem_map, List.mem_flatMap]
  refine or_congr ?_ ?_
  · constructor
    · rintro ⟨property, listed, rfl⟩
      exact ⟨property, mem_objectProperties.mp listed, rfl⟩
    · rintro ⟨property, object, rfl⟩
      exact ⟨property, mem_objectProperties.mpr object, rfl⟩
  · refine exists_congr fun chain => and_congr_right fun _ => ?_
    rw [List.mem_filter, List.mem_tails, decide_eq_true_eq, and_comm]

theorem Spells.lt_length {records : List PropertyChainRecord} {chain : Nat} {spelled : List EntityId}
    (spells : Spells records chain spelled) : chain < records.length := by
  cases spells with
  | singleton entry => exact (List.getElem?_eq_some_iff.mp entry).1
  | link entry _ => exact (List.getElem?_eq_some_iff.mp entry).1

/-- The nonempty suffixes of a spelled sequence are spelled by later links. -/
theorem Spells.suffix {records : List PropertyChainRecord} {chain : Nat} {spelled suffix : List EntityId}
    (spells : Spells records chain spelled) (tail : suffix <:+ spelled) (nonempty : suffix ≠ []) :
    ∃ link, Spells records link suffix := by
  induction spells with
  | singleton entry =>
    rcases List.suffix_cons_iff.mp tail with rfl | rest
    · exact ⟨_, .singleton entry⟩
    · exact absurd (List.suffix_nil.mp rest) nonempty
  | link entry spelledRest ih =>
    rcases List.suffix_cons_iff.mp tail with rfl | rest
    · exact ⟨_, .link entry spelledRest⟩
    · exact ih rest

/-- Distinct records spell distinct sequences. -/
theorem Spells.injective {records : List PropertyChainRecord} (distinct : records.Nodup) {left right : Nat}
    {spelled : List EntityId} (first : Spells records left spelled) (second : Spells records right spelled) :
    left = right := by
  have same_entry : ∀ {i j : Nat} {record}, records[i]? = some record → records[j]? = some record → i = j :=
    fun atLeft atRight =>
      (List.getElem?_inj (List.getElem?_eq_some_iff.mp atLeft).1 distinct).mp (atLeft.trans atRight.symm)
  induction first generalizing right with
  | singleton entry =>
    cases second with
    | singleton other => exact same_entry entry other
    | link _ tail => cases tail
  | link entry tail ih =>
    cases second with
    | singleton _ => cases tail
    | link other rest => exact same_entry entry (ih rest ▸ other)

/-- Every interned record spells a sequence of `sources`. -/
def Interning.Covered (sources : List EntityId → Prop) (table : Interning) : Prop :=
  ∀ index < table.records.length, ∃ spelled, sources spelled ∧ Spells table.records index spelled

section

variable {compiled : Tables} {table : Interning} {sources : List EntityId → Prop}

/-- Interning one link adds at most the record of the returned id. -/
theorem Interning.addLink_index {property : EntityId} {suffix : Option Nat} {index : Nat}
    (bound : index < (table.addLink property suffix).1.records.length) :
    index < table.records.length ∨ index = (table.addLink property suffix).2 := by
  unfold Interning.addLink at bound ⊢
  split
  · rename_i present
    rw [if_pos present] at bound
    exact .inl bound
  · rename_i novel
    rw [if_neg novel] at bound
    simp only [List.length_append, List.length_singleton] at bound
    dsimp only
    omega

theorem Interning.Covered.addChain (covered : table.Covered sources) (sound : table.Sound compiled)
    {chain : List EntityId} (objects : ∀ property ∈ chain, compiled.EntityOf property .objectProperty)
    (listed : ∀ suffix, suffix ≠ [] → suffix <:+ chain → sources suffix) :
    (table.addChain chain).1.Covered sources := by
  induction chain with
  | nil => exact covered
  | cons property rest ih =>
    have earlier := ih (fun other member => objects other (List.mem_cons_of_mem _ member))
      fun suffix nonempty tail => listed suffix nonempty (tail.trans (List.suffix_cons _ _))
    obtain ⟨_, _, root, same, spells⟩ := sound.addChain (List.cons_ne_nil property rest) objects
    have grown : (table.addChain rest).1.records <+: (table.addChain (property :: rest)).1.records := by
      change _ <+: ((table.addChain rest).1.addLink property (table.addChain rest).2).1.records
      unfold Interning.addLink
      split
      · exact List.prefix_rfl
      · exact List.prefix_append _ _
    intro index bound
    rcases Interning.addLink_index bound with before | last
    · obtain ⟨spelled, source, spelledBefore⟩ := earlier index before
      exact ⟨spelled, source, spelledBefore.mono grown⟩
    · have current : index = root := last.trans (Option.some.inj same)
      exact ⟨property :: rest, listed _ (List.cons_ne_nil _ _) List.suffix_rfl, current ▸ spells⟩

theorem Interning.Covered.addChains {chains : List (List EntityId)} (covered : table.Covered sources)
    (sound : table.Sound compiled)
    (checked : ∀ chain ∈ chains, chain ≠ [] ∧ ∀ property ∈ chain, compiled.EntityOf property .objectProperty)
    (listed : ∀ chain ∈ chains, ∀ suffix, suffix ≠ [] → suffix <:+ chain → sources suffix) :
    (table.addChains chains).1.Covered sources := by
  induction chains generalizing table with
  | nil => exact covered
  | cons chain rest ih =>
    obtain ⟨nonempty, objects⟩ := checked chain List.mem_cons_self
    have head := covered.addChain sound objects (listed chain List.mem_cons_self)
    obtain ⟨soundHead, _⟩ := sound.addChain nonempty objects
    exact ih head soundHead (fun other member => checked other (List.mem_cons_of_mem _ member))
      fun other member => listed other (List.mem_cons_of_mem _ member)

end

section

variable {compiled : Tables} (valid : compiled.Valid)

include valid

/-- The interning phase records nothing but properties and chain suffixes. -/
theorem addCompiledChains_covered : (addCompiledChains compiled).1.Covered compiled.ChainSuffix := by
  have empty : Interning.Covered compiled.ChainSuffix ⟨[], []⟩ := fun _ bound => absurd bound (Nat.not_lt_zero _)
  have singletons : (addSingletons compiled).1.Covered compiled.ChainSuffix := by
    have base : Interning.Sound compiled ⟨[], []⟩ := .empty
    refine empty.addChains base (fun chain member => ?_) fun chain member suffix nonempty tail => ?_
    · obtain ⟨property, found, rfl⟩ := List.mem_map.mp member
      refine ⟨List.cons_ne_nil _ _, fun other single => ?_⟩
      rw [List.mem_singleton.mp single]
      exact mem_objectProperties.mp found
    · obtain ⟨property, found, rfl⟩ := List.mem_map.mp member
      rcases List.suffix_cons_iff.mp tail with whole | rest
      · exact .inl ⟨property, mem_objectProperties.mp found, whole⟩
      · exact absurd (List.suffix_nil.mp rest) nonempty
  exact singletons.addChains (addSingletons_sound compiled).1 (fun _ member => valid.chain_properties member)
    fun chain member suffix nonempty tail => .inr ⟨chain, member, nonempty, tail⟩

/-- Every id of the saturation's universe spells an object property or a chain suffix. -/
theorem closeProperties_interned {chain : PropertyChainId}
    (bound : chain < (closeProperties compiled).chains.length) :
    ∃ spelled, compiled.ChainSuffix spelled ∧ Spells (closeProperties compiled).chains chain spelled := by
  have sound := (addCompiledChains_sound valid).1
  obtain ⟨temporary, original, entry, place, _⟩ := sound.of_final (-1) (List.getElem?_eq_getElem bound)
  obtain ⟨spelled, source, spells⟩ :=
    addCompiledChains_covered valid temporary (List.getElem?_eq_some_iff.mp entry).1
  exact ⟨spelled, source, place ▸ sound.spells_final (-1) spells⟩

end

section

variable {compiled : Tables} {properties : PropertySaturation} (spec : properties.Spec compiled)

include spec

theorem PropertySaturation.Spec.spells_singleton {property : EntityId}
    (object : compiled.EntityOf property .objectProperty) :
    Spells properties.chains (properties.singletonChain property) [property] :=
  .singleton (spec.singleton object)

theorem PropertySaturation.Spec.spells_suffix {spelled : List EntityId} (source : compiled.ChainSuffix spelled) :
    ∃ chain, Spells properties.chains chain spelled := by
  rcases source with ⟨property, object, rfl⟩ | ⟨chain, listed, nonempty, tail⟩
  · exact ⟨_, spec.spells_singleton object⟩
  · obtain ⟨index, entry⟩ := List.mem_iff_getElem?.mp listed
    exact (spec.compiledChain entry).suffix tail nonempty

end

/-- The chain table has one record for each sequence with a property of its own. -/
theorem length_closeProperties_chains {compiled : Tables} (valid : compiled.Valid) :
    (closeProperties compiled).chains.length = compiled.chainSuffixes.length := by
  have spec := closeProperties_spec valid
  have interned : ∀ chain ∈ Finset.range (closeProperties compiled).chains.length,
      ∃ spelled, compiled.ChainSuffix spelled ∧ Spells (closeProperties compiled).chains chain spelled :=
    fun chain bound => closeProperties_interned valid (Finset.mem_range.mp bound)
  have distinct : compiled.chainSuffixes.Nodup := List.nodup_dedup _
  rw [← List.toFinset_card_of_nodup distinct,
    ← Finset.card_range (closeProperties compiled).chains.length]
  refine Finset.card_bij (fun chain bound => (interned chain bound).choose) ?_ ?_ ?_
  · intro chain bound
    exact List.mem_toFinset.mpr (Tables.mem_chainSuffixes.mpr (interned chain bound).choose_spec.1)
  · intro left boundLeft right boundRight same
    have first := (interned left boundLeft).choose_spec.2
    rw [same] at first
    exact first.injective spec.distinct (interned right boundRight).choose_spec.2
  · intro spelled listed
    obtain ⟨chain, spells⟩ := spec.spells_suffix (Tables.mem_chainSuffixes.mp (List.mem_toFinset.mp listed))
    have bound := Finset.mem_range.mpr spells.lt_length
    exact ⟨chain, bound, (interned chain bound).choose_spec.2.unique spells⟩

end PyElk
