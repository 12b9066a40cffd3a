import Mathlib.Data.List.Forall2
import Mathlib.Tactic.Tauto
import PyElk.Indexing.Validity
import PyElk.Reasoning.Properties

open Ordered

namespace PyElk

/-- The left-to-right property sequence that a right-linked chain record stands for. -/
inductive Spells (records : List PropertyChainRecord) : Nat → List EntityId → Prop
  | singleton {chain property} (entry : records[chain]? = some ⟨property, none⟩) : Spells records chain [property]
  | link {chain property suffix rest} (entry : records[chain]? = some ⟨property, some suffix⟩)
      (tail : Spells records suffix rest) : Spells records chain (property :: rest)

theorem Spells.unique {records : List PropertyChainRecord} {chain : Nat} {left right : List EntityId}
    (spells : Spells records chain left) (others : Spells records chain right) : left = right := by
  induction spells generalizing right with
  | singleton entry =>
    cases others with
    | singleton entry' =>
      cases entry.symm.trans entry'
      rfl
    | link entry' _ => cases entry.symm.trans entry'
  | link entry _ ih =>
    cases others with
    | singleton entry' => cases entry.symm.trans entry'
    | link entry' tail =>
      cases entry.symm.trans entry'
      rw [ih tail]

theorem Spells.mono {records more : List PropertyChainRecord} (grown : records <+: more) {chain : Nat}
    {properties : List EntityId} (spells : Spells records chain properties) : Spells more chain properties := by
  have kept : ∀ {index : Nat} {record}, records[index]? = some record → more[index]? = some record := by
    intro index record entry
    obtain ⟨rest, rfl⟩ := grown
    exact List.getElem?_append_left (List.getElem?_eq_some_iff.mp entry).1 ▸ entry
  induction spells with
  | singleton entry => exact .singleton (kept entry)
  | link entry _ ih => exact .link (kept entry) ih

/-- Interned records are distinct, link to earlier suffixes and know their depth. -/
structure Interning.Sound (compiled : Tables) (table : Interning) : Prop where
  distinct : table.records.Nodup
  depths : table.depths.length = table.records.length
  property : ∀ record ∈ table.records, compiled.EntityOf record.firstProperty .objectProperty
  suffix_lt : ∀ {index : Nat} {property suffix}, table.records[index]? = some ⟨property, some suffix⟩ → suffix < index
  depth : ∀ {index : Nat} {property suffix}, table.records[index]? = some ⟨property, suffix⟩ →
    table.depths.getD index 0 = suffix.elim 1 fun link => table.depths.getD link 0 + 1

theorem getD_append_left {values more : List Nat} {index : Nat} (bound : index < values.length) :
    (values ++ more).getD index 0 = values.getD index 0 := by
  simp only [List.getD_eq_getElem?_getD, List.getElem?_append_left bound]

section

variable {compiled : Tables} {table : Interning}

theorem Interning.Sound.empty : Interning.Sound compiled ⟨[], []⟩ where
  distinct := .nil
  depths := rfl
  property := fun _ member => absurd member List.not_mem_nil
  suffix_lt := fun entry => by simp at entry
  depth := fun entry => by simp at entry

/-- What interning one link returns: a grown sound table and the id of the link. -/
theorem Interning.Sound.addLink (sound : table.Sound compiled) {property : EntityId} {suffix : Option Nat}
    (object : compiled.EntityOf property .objectProperty)
    (interned : ∀ link, suffix = some link → link < table.records.length) :
    (table.addLink property suffix).1.Sound compiled ∧
      table.records <+: (table.addLink property suffix).1.records ∧
      (table.addLink property suffix).1.records[(table.addLink property suffix).2]? =
        some ⟨property, suffix⟩ := by
  unfold Interning.addLink
  split
  · rename_i present
    refine ⟨sound, List.prefix_rfl, ?_⟩
    exact List.getElem?_eq_some_iff.mpr ⟨List.idxOf_lt_length_of_mem present, List.getElem_idxOf _⟩
  · rename_i novel
    refine ⟨⟨?_, ?_, ?_, ?_, ?_⟩, List.prefix_append _ _, ?_⟩
    · refine List.nodup_append.mpr ⟨sound.distinct, List.nodup_singleton _, ?_⟩
      intro a member b single equal
      rw [equal, List.mem_singleton.mp single] at member
      exact novel member
    · simp only [List.length_append, sound.depths, List.length_singleton]
    · intro record member
      rcases List.mem_append.mp member with old | new
      · exact sound.property record old
      · rw [List.mem_singleton.mp new]
        exact object
    · intro index other link entry
      rcases Nat.lt_or_ge index table.records.length with before | after
      · rw [List.getElem?_append_left before] at entry
        exact sound.suffix_lt entry
      · rw [List.getElem?_append_right after] at entry
        have last : index - table.records.length = 0 := by
          have := (List.getElem?_eq_some_iff.mp entry).1
          simp only [List.length_singleton] at this
          omega
        rw [last] at entry
        simp only [List.getElem?_cons_zero, Option.some.injEq, PropertyChainRecord.mk.injEq] at entry
        exact Nat.lt_of_lt_of_le (interned link entry.2) after
    · intro index other link entry
      rcases Nat.lt_or_ge index table.records.length with before | after
      · rw [List.getElem?_append_left before] at entry
        rw [getD_append_left (by rw [sound.depths]; exact before), sound.depth entry]
        cases link with
        | none => rfl
        | some link =>
          have earlier : link < index := sound.suffix_lt entry
          simp only [Option.elim_some]
          rw [getD_append_left (by rw [sound.depths]; exact Nat.lt_trans earlier before)]
      · rw [List.getElem?_append_right after] at entry
        have last : index = table.records.length := by
          have := (List.getElem?_eq_some_iff.mp entry).1
          simp only [List.length_singleton] at this
          omega
        subst last
        simp only [Nat.sub_self, List.getElem?_cons_zero, Option.some.injEq, PropertyChainRecord.mk.injEq] at entry
        obtain ⟨rfl, rfl⟩ := entry
        rw [List.getD_eq_getElem?_getD, ← sound.depths, List.getElem?_append_right (Nat.le_refl _), Nat.sub_self,
          List.getElem?_cons_zero, Option.getD_some]
        cases suffix with
        | none => rfl
        | some link =>
          simp only [Option.elim_some]
          rw [getD_append_left (by rw [sound.depths]; exact interned link rfl)]
    · rw [List.getElem?_append_right (Nat.le_refl _), Nat.sub_self, List.getElem?_cons_zero]

/-- What interning a chain returns: an id that spells the chain. -/
theorem Interning.Sound.addChain (sound : table.Sound compiled) {chain : List EntityId} (nonempty : chain ≠ [])
    (objects : ∀ property ∈ chain, compiled.EntityOf property .objectProperty) :
    (table.addChain chain).1.Sound compiled ∧ table.records <+: (table.addChain chain).1.records ∧
      ∃ root, (table.addChain chain).2 = some root ∧ Spells (table.addChain chain).1.records root chain := by
  induction chain with
  | nil => exact absurd rfl nonempty
  | cons property rest ih =>
    have object := objects property List.mem_cons_self
    by_cases last : rest = []
    · subst last
      have absent : ∀ link, (none : Option Nat) = some link → link < table.records.length :=
        fun _ found => by cases found
      obtain ⟨grown, more, entry⟩ := sound.addLink object absent
      exact ⟨grown, more, _, rfl, .singleton entry⟩
    · obtain ⟨soundRest, moreRest, root, same, spells⟩ :=
        ih last fun other member => objects other (List.mem_cons_of_mem _ member)
      have interned : ∀ link, (table.addChain rest).2 = some link →
        link < (table.addChain rest).1.records.length := by
        intro link found
        rw [same] at found
        cases found
        cases spells with
        | singleton entry => exact (List.getElem?_eq_some_iff.mp entry).1
        | link entry _ => exact (List.getElem?_eq_some_iff.mp entry).1
      obtain ⟨grown, more, entry⟩ := soundRest.addLink object interned
      refine ⟨grown, moreRest.trans more, ((table.addChain rest).1.addLink property (table.addChain rest).2).2,
        rfl, ?_⟩
      have linked := entry.trans (congrArg (fun suffix => some (⟨property, suffix⟩ : PropertyChainRecord)) same)
      exact .link linked (spells.mono more)

/-- Interning several chains: each gets an id that spells it. -/
theorem Interning.Sound.addChains {chains : List (List EntityId)} (sound : table.Sound compiled)
    (checked : ∀ chain ∈ chains, chain ≠ [] ∧ ∀ property ∈ chain, compiled.EntityOf property .objectProperty) :
    (table.addChains chains).1.Sound compiled ∧ table.records <+: (table.addChains chains).1.records ∧
      List.Forall₂ (Spells (table.addChains chains).1.records) (table.addChains chains).2 chains := by
  induction chains generalizing table with
  | nil => exact ⟨sound, List.prefix_rfl, .nil⟩
  | cons chain rest ih =>
    obtain ⟨nonempty, objects⟩ := checked chain List.mem_cons_self
    obtain ⟨soundHead, moreHead, root, same, spells⟩ := sound.addChain nonempty objects
    obtain ⟨soundRest, moreRest, others⟩ :=
      ih soundHead fun other member => checked other (List.mem_cons_of_mem _ member)
    refine ⟨soundRest, moreHead.trans moreRest, ?_⟩
    simp only [Interning.addChains, same, Option.getD_some]
    exact .cons (spells.mono moreRest) others

/-- The ids of one depth, in the order that `finalOrder` appends them. -/
theorem Interning.mem_renumberDepth {noSuffix : Int} {order : List Nat} {depth temporary : Nat} :
    temporary ∈ table.renumberDepth noSuffix order depth ↔
      temporary ∈ order ∨ (temporary < table.records.length ∧ table.depths.getD temporary 0 = depth) := by
  simp only [renumberDepth, List.mem_append, mem_sortedBy, List.mem_filter, List.mem_range, beq_iff_eq]

/-- Appending depth after depth lists the ids of these depths once, by ascending depth. -/
theorem Interning.renumber_spec (noSuffix : Int) {depths : List Nat} (ascending : depths.Pairwise (· < ·))
    {order : List Nat} (distinct : order.Nodup)
    (sorted : order.Pairwise fun a b => table.depths.getD a 0 ≤ table.depths.getD b 0)
    (below : ∀ temporary ∈ order, ∀ depth ∈ depths, table.depths.getD temporary 0 < depth) :
    (depths.foldl (table.renumberDepth noSuffix) order).Nodup ∧
      (depths.foldl (table.renumberDepth noSuffix) order).Pairwise
        (fun a b => table.depths.getD a 0 ≤ table.depths.getD b 0) ∧
      ∀ temporary, temporary ∈ depths.foldl (table.renumberDepth noSuffix) order ↔
        temporary ∈ order ∨ (temporary < table.records.length ∧ table.depths.getD temporary 0 ∈ depths) := by
  induction depths generalizing order with
  | nil => exact ⟨distinct, sorted, fun temporary => by simp⟩
  | cons depth rest ih =>
    obtain ⟨first, later⟩ := List.pairwise_cons.mp ascending
    have inBlock : ∀ {temporary}, temporary ∈ sortedBy (table.sortKey noSuffix order)
        ((List.range table.records.length).filter fun temporary => table.depths.getD temporary 0 == depth) →
        table.depths.getD temporary 0 = depth := by
      intro temporary member
      simp only [mem_sortedBy, List.mem_filter, beq_iff_eq] at member
      exact member.2
    have distinct' : (table.renumberDepth noSuffix order depth).Nodup := by
      refine List.nodup_append.mpr ⟨distinct, sortedBy_nodup (List.nodup_range.filter _), ?_⟩
      intro a old b new equal
      subst equal
      have bound := below a old depth List.mem_cons_self
      rw [inBlock new] at bound
      exact lt_irrefl _ bound
    have sorted' : (table.renumberDepth noSuffix order depth).Pairwise
        fun a b => table.depths.getD a 0 ≤ table.depths.getD b 0 := by
      refine List.pairwise_append.mpr ⟨sorted, ?_, ?_⟩
      · refine List.Pairwise.imp_of_mem (R := fun _ _ => True) ?_ (List.pairwise_of_forall fun _ _ => trivial)
        intro a b left right _
        rw [inBlock left, inBlock right]
      · intro a old b new
        rw [inBlock new]
        exact (below a old depth List.mem_cons_self).le
    have below' : ∀ temporary ∈ table.renumberDepth noSuffix order depth, ∀ next ∈ rest,
        table.depths.getD temporary 0 < next := by
      intro temporary member next found
      rcases List.mem_append.mp member with old | new
      · exact below temporary old next (List.mem_cons_of_mem _ found)
      · rw [inBlock new]
        exact first next found
    obtain ⟨nodup, pairwise, members⟩ := ih later distinct' sorted' below'
    refine ⟨nodup, pairwise, fun temporary => ?_⟩
    rw [List.foldl_cons, members, mem_renumberDepth, List.mem_cons]
    tauto

theorem Interning.Sound.final (sound : table.Sound compiled) (noSuffix : Int) :
    (table.finalOrder noSuffix).Nodup ∧
      (table.finalOrder noSuffix).Pairwise (fun a b => table.depths.getD a 0 ≤ table.depths.getD b 0) ∧
      ∀ temporary, temporary ∈ table.finalOrder noSuffix ↔ temporary < table.records.length := by
  have ascending : (sortedSet id table.depths).Pairwise (· < ·) := sortedSet_strict Function.injective_id _
  obtain ⟨distinct, sorted, members⟩ := Interning.renumber_spec noSuffix ascending .nil .nil
    (fun _ member => absurd member List.not_mem_nil)
  refine ⟨distinct, sorted, fun temporary => ?_⟩
  rw [Interning.finalOrder, members, mem_sortedSet]
  constructor
  · rintro (nothing | ⟨bound, _⟩)
    · exact absurd nothing List.not_mem_nil
    · exact bound
  · intro bound
    rw [← sound.depths] at bound
    refine Or.inr ⟨sound.depths ▸ bound, ?_⟩
    rw [List.getD_eq_getElem?_getD, List.getElem?_eq_getElem bound, Option.getD_some]
    exact List.getElem_mem bound

/-- The final id of a temporary id carries the renumbered record. -/
theorem Interning.Sound.final_record (sound : table.Sound compiled) (noSuffix : Int) {temporary : Nat}
    {record : PropertyChainRecord} (entry : table.records[temporary]? = some record) :
    (table.finalRecords noSuffix)[(table.finalOrder noSuffix).idxOf temporary]? =
      some ⟨record.firstProperty, record.suffixChain.map (table.finalOrder noSuffix).idxOf⟩ := by
  obtain ⟨_, _, members⟩ := sound.final noSuffix
  have member := (members temporary).mpr (List.getElem?_eq_some_iff.mp entry).1
  have same : table.record temporary = record := by
    rw [Interning.record, List.getD_eq_getElem?_getD, entry, Option.getD_some]
  rw [Interning.finalRecords, List.getElem?_map, List.getElem?_eq_getElem (List.idxOf_lt_length_of_mem member),
    List.getElem_idxOf,
    Option.map_some, same]

/-- A suffix is renumbered before every chain that links to it. -/
theorem Interning.Sound.idxOf_lt (sound : table.Sound compiled) (noSuffix : Int) {temporary suffix : Nat}
    {property : EntityId} (entry : table.records[temporary]? = some ⟨property, some suffix⟩) :
    (table.finalOrder noSuffix).idxOf suffix < (table.finalOrder noSuffix).idxOf temporary := by
  obtain ⟨_, sorted, members⟩ := sound.final noSuffix
  have earlier : suffix < temporary := sound.suffix_lt entry
  have bound : temporary < table.records.length := (List.getElem?_eq_some_iff.mp entry).1
  have deeper : table.depths.getD temporary 0 = table.depths.getD suffix 0 + 1 := sound.depth entry
  have placed := List.idxOf_lt_length_of_mem ((members temporary).mpr bound)
  have placedSuffix := List.idxOf_lt_length_of_mem ((members suffix).mpr (earlier.trans bound))
  rcases lt_trichotomy ((table.finalOrder noSuffix).idxOf suffix) ((table.finalOrder noSuffix).idxOf temporary)
    with before | same | after
  · exact before
  · have equal := congrArg (fun index => (table.finalOrder noSuffix)[index]?) same
    simp only [List.getElem?_eq_getElem placed, List.getElem?_eq_getElem placedSuffix, List.getElem_idxOf] at equal
    cases equal
    exact absurd earlier (lt_irrefl _)
  · have order := List.pairwise_iff_getElem.mp sorted _ _ placed placedSuffix after
    simp only [List.getElem_idxOf] at order
    omega

end

/-- What the saturation-local chain table guarantees. -/
structure ChainUniverse.Sound (compiled : Tables) (chains : ChainUniverse) : Prop where
  distinct : chains.records.Nodup
  property : ∀ record ∈ chains.records, compiled.EntityOf record.firstProperty .objectProperty
  suffix_lt : ∀ {chain : Nat} {property suffix}, chains.records[chain]? = some ⟨property, some suffix⟩ →
    suffix < chain
  singleton : ∀ {property}, compiled.EntityOf property .objectProperty →
    chains.records[chains.singletonChain property]? = some ⟨property, none⟩
  compiled : ∀ {index : Nat} {chain}, compiled.propertyChains[index]? = some chain →
    Spells chains.records (chains.compiledChain index) chain

theorem mem_objectProperties {compiled : Tables} {property : EntityId} :
    property ∈ objectProperties compiled.entities ↔ compiled.EntityOf property .objectProperty := by
  simp only [objectProperties, List.mem_map, List.mem_filter, beq_iff_eq, Prod.exists]
  constructor
  · rintro ⟨⟨kind, iri⟩, _, ⟨entry, rfl⟩, rfl⟩
    exact ⟨iri, List.mem_zipIdx_iff_getElem?.mp entry⟩
  · rintro ⟨iri, entry⟩
    exact ⟨_, property, ⟨List.mem_zipIdx_iff_getElem?.mpr entry, rfl⟩, rfl⟩

/-- A key of a zip is looked up to one of its partners. -/
theorem lookup_zip {keys values : List Nat} (lengths : keys.length = values.length) {key : Nat}
    (member : key ∈ keys) :
    ∃ value, (keys.zip values).lookup key = some value ∧ (key, value) ∈ keys.zip values := by
  induction keys generalizing values with
  | nil => exact absurd member List.not_mem_nil
  | cons head keys ih =>
    cases values with
    | nil => simp at lengths
    | cons value values =>
      by_cases same : key = head
      · subst same
        exact ⟨value, by simp, by simp⟩
      · have rest := (List.mem_cons.mp member).resolve_left same
        obtain ⟨found, looked, paired⟩ := ih (by simpa using lengths) rest
        refine ⟨found, ?_, List.mem_cons_of_mem _ paired⟩
        rw [List.zip_cons_cons, List.lookup_cons, beq_false_of_ne same]
        exact looked

/-- Renumbering keeps what a chain spells. -/
theorem Interning.Sound.spells_final {compiled : Tables} {table : Interning} (sound : table.Sound compiled)
    (noSuffix : Int) {temporary : Nat} {properties : List EntityId}
    (spells : Spells table.records temporary properties) :
    Spells (table.finalRecords noSuffix) ((table.finalOrder noSuffix).idxOf temporary) properties := by
  induction spells with
  | singleton entry => exact .singleton (sound.final_record noSuffix entry)
  | link entry _ ih => exact .link (sound.final_record noSuffix entry) ih

/-- A final record is the renumbered record of some temporary id. -/
theorem Interning.Sound.of_final {compiled : Tables} {table : Interning} (sound : table.Sound compiled)
    (noSuffix : Int) {chain : Nat} {record : PropertyChainRecord}
    (entry : (table.finalRecords noSuffix)[chain]? = some record) :
    ∃ temporary original, table.records[temporary]? = some original ∧
      chain = (table.finalOrder noSuffix).idxOf temporary ∧
      record = ⟨original.firstProperty, original.suffixChain.map (table.finalOrder noSuffix).idxOf⟩ := by
  obtain ⟨distinct, _, members⟩ := sound.final noSuffix
  rw [Interning.finalRecords, List.getElem?_map] at entry
  obtain ⟨temporary, found, same⟩ := Option.map_eq_some_iff.mp entry
  obtain ⟨bound, at_chain⟩ := List.getElem?_eq_some_iff.mp found
  have interned := (members temporary).mp (at_chain ▸ List.getElem_mem bound)
  refine ⟨temporary, table.records[temporary], List.getElem?_eq_getElem interned, ?_, ?_⟩
  · rw [← at_chain, distinct.idxOf_getElem]
  · have original : table.record temporary = table.records[temporary] := by
      rw [Interning.record, List.getD_eq_getElem?_getD, List.getElem?_eq_getElem interned, Option.getD_some]
    rw [← same, original]

theorem Interning.Sound.finalRecords_nodup {compiled : Tables} {table : Interning} (sound : table.Sound compiled)
    (noSuffix : Int) : (table.finalRecords noSuffix).Nodup := by
  obtain ⟨_, _, members⟩ := sound.final noSuffix
  rw [List.nodup_iff_injective_getElem]
  intro i j same
  obtain ⟨left, leftRecord, leftEntry, leftPlace, leftSame⟩ :=
    sound.of_final noSuffix (List.getElem?_eq_getElem i.isLt)
  obtain ⟨right, rightRecord, rightEntry, rightPlace, rightSame⟩ :=
    sound.of_final noSuffix (List.getElem?_eq_getElem j.isLt)
  have equal := leftSame.symm.trans (same.trans rightSame)
  obtain ⟨leftFirst, leftSuffix⟩ := leftRecord
  obtain ⟨rightFirst, rightSuffix⟩ := rightRecord
  simp only [PropertyChainRecord.mk.injEq] at equal
  have suffixes : leftSuffix = rightSuffix := by
    cases leftSuffix with
    | none =>
      cases rightSuffix with
      | none => rfl
      | some _ => simp at equal
    | some leftLink =>
      cases rightSuffix with
      | none => simp at equal
      | some rightLink =>
        have leftBound : leftLink < left := sound.suffix_lt leftEntry
        have member := (members leftLink).mpr (leftBound.trans (List.getElem?_eq_some_iff.mp leftEntry).1)
        simp only [Option.map_some, Option.some.injEq] at equal
        rw [(List.idxOf_inj member).mp equal.2]
  have records : left = right := by
    refine (List.getElem?_inj (List.getElem?_eq_some_iff.mp leftEntry).1 sound.distinct).mp ?_
    rw [leftEntry, rightEntry, equal.1, suffixes]
  exact Fin.ext (by rw [leftPlace, rightPlace, records])

theorem addSingletons_sound (compiled : Tables) :
    (addSingletons compiled).1.Sound compiled ∧
      List.Forall₂ (Spells (addSingletons compiled).1.records) (addSingletons compiled).2
        ((objectProperties compiled.entities).map fun property => [property]) := by
  have checked : ∀ chain ∈ (objectProperties compiled.entities).map fun property => [property],
      chain ≠ [] ∧ ∀ property ∈ chain, compiled.EntityOf property .objectProperty := by
    intro chain member
    obtain ⟨property, found, rfl⟩ := List.mem_map.mp member
    refine ⟨List.cons_ne_nil _ _, fun other single => ?_⟩
    rw [List.mem_singleton.mp single]
    exact mem_objectProperties.mp found
  obtain ⟨sound, _, spelled⟩ := Interning.Sound.empty.addChains checked
  exact ⟨sound, spelled⟩

theorem addCompiledChains_sound {compiled : Tables} (valid : compiled.Valid) :
    (addCompiledChains compiled).1.Sound compiled ∧
      (addSingletons compiled).1.records <+: (addCompiledChains compiled).1.records ∧
      List.Forall₂ (Spells (addCompiledChains compiled).1.records)
        (addCompiledChains compiled).2 compiled.propertyChains :=
  (addSingletons_sound compiled).1.addChains fun _ member => valid.chain_properties member

/-- `_build_chain_universe` meets its specification on every valid ontology. -/
theorem chainUniverse_sound {compiled : Tables} (valid : compiled.Valid) (noSuffix : Int) :
    (chainUniverse noSuffix compiled).Sound compiled := by
  obtain ⟨_, singles⟩ := addSingletons_sound compiled
  obtain ⟨sound, grown, spelled⟩ := addCompiledChains_sound valid
  refine ⟨sound.finalRecords_nodup noSuffix, ?_, ?_, ?_, ?_⟩
  · intro record member
    obtain ⟨chain, entry⟩ := List.mem_iff_getElem?.mp member
    obtain ⟨temporary, original, found, _, rfl⟩ := sound.of_final noSuffix entry
    exact sound.property original (List.mem_of_getElem? found)
  · intro chain property suffix entry
    obtain ⟨temporary, ⟨first, link⟩, found, place, same⟩ := sound.of_final noSuffix entry
    simp only [PropertyChainRecord.mk.injEq] at same
    obtain ⟨rfl, linked⟩ := same
    obtain ⟨original, rfl, rfl⟩ := Option.map_eq_some_iff.mp linked.symm
    rw [place]
    exact sound.idxOf_lt noSuffix found
  · intro property object
    have lengths : (objectProperties compiled.entities).length =
        ((addSingletons compiled).2.map ((addCompiledChains compiled).1.finalOrder noSuffix).idxOf).length := by
      rw [List.length_map, singles.length_eq, List.length_map]
    obtain ⟨value, looked, paired⟩ := lookup_zip lengths (mem_objectProperties.mpr object)
    have chosen : (chainUniverse noSuffix compiled).singletonChain property = value := by
      rw [ChainUniverse.singletonChain]
      simp only [chainUniverse, looked, Option.getD_some]
    obtain ⟨index, at_index⟩ := List.mem_iff_getElem?.mp paired
    obtain ⟨atKey, atValue⟩ := List.getElem?_zip_eq_some.mp at_index
    rw [List.getElem?_map] at atValue
    obtain ⟨temporary, atTemporary, rfl⟩ := Option.map_eq_some_iff.mp atValue
    have single := (List.forall₂_iff_get.mp singles).2 index (List.getElem?_eq_some_iff.mp atTemporary).1
      (by rw [List.length_map]; exact (List.getElem?_eq_some_iff.mp atKey).1)
    simp only [List.get_eq_getElem, List.getElem_map, (List.getElem?_eq_some_iff.mp atTemporary).2,
      (List.getElem?_eq_some_iff.mp atKey).2] at single
    rw [chosen]
    cases single.mono grown with
    | singleton entry => exact sound.final_record noSuffix entry
    | link _ tail => cases tail
  · intro index chain entry
    have bound := (List.getElem?_eq_some_iff.mp entry).1
    have other : index < (addCompiledChains compiled).2.length := by rw [spelled.length_eq]; exact bound
    have spells := (List.forall₂_iff_get.mp spelled).2 index other bound
    simp only [List.get_eq_getElem, (List.getElem?_eq_some_iff.mp entry).2] at spells
    have chosen : (chainUniverse noSuffix compiled).compiledChain index =
        ((addCompiledChains compiled).1.finalOrder noSuffix).idxOf (addCompiledChains compiled).2[index] := by
      rw [ChainUniverse.compiledChain]
      simp only [chainUniverse, List.getD_eq_getElem?_getD, List.getElem?_map,
        List.getElem?_eq_getElem other, Option.map_some, Option.getD_some]
    rw [chosen]
    exact sound.spells_final noSuffix spells

end PyElk
