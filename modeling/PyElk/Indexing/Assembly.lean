import PyElk.Indexing.FreezeValid
import PyElk.Indexing.NormalRows

open Ordered

namespace PyElk

namespace MutableIndex

section

variable {index : MutableIndex}

/-- The tables that `freeze` hands to the validating constructor. -/
def frozenTables (index : MutableIndex) (sourceFingerprint : List UInt8) : Tables :=
  index.ensureNamedExpressions.tables (sortedEntities index.ensureNamedExpressions.entities) sourceFingerprint

variable (wellFormed : index.WellFormed)

include wellFormed

theorem WellFormed.ready (predefined : predefinedEntities ⊆ index.entities) :
    index.ensureNamedExpressions.Ready (sortedEntities index.ensureNamedExpressions.entities) := by
  obtain ⟨named, content⟩ := wellFormed.ensureNamedExpressions_content
  have table : ∀ {entity}, entity ∈ sortedEntities index.ensureNamedExpressions.entities ↔
      entity ∈ index.ensureNamedExpressions.entities := mem_sortedSet
  refine ⟨named, checkSortedUnique_sortedSet EntityRecord.key_injective _, table,
    List.Subset.trans predefined index.ensureNamedExpressions_grows.entities,
    fun entity member expression found => ?_⟩
  have known : entity ∈ index.ensureNamedExpressions.content.entities := table.mp member
  rw [content] at known ⊢
  exact Or.inr ⟨entity, known, found⟩

theorem WellFormed.freeze_eq (sourceFingerprint : List UInt8) :
    index.freeze sourceFingerprint = (index.frozenTables sourceFingerprint).check :=
  if_pos (wellFormed.ensureNamedExpressions_content.1.finalOrder_spec _).2.2.2

/-- Freezing fails when ids of 32 bits do not suffice, and only then. -/
theorem WellFormed.freeze_eq_none (predefined : predefinedEntities ⊆ index.entities) {sourceFingerprint : List UInt8}
    (digest : sourceFingerprint.length = FINGERPRINT_SIZE) :
    index.freeze sourceFingerprint = none ↔ ¬(index.frozenTables sourceFingerprint).IdsFit := by
  have valid := (wellFormed.ready predefined).tables_valid sourceFingerprint
  rw [wellFormed.freeze_eq, Tables.check]
  simp only [dite_eq_right_iff, reduceCtorEq, imp_false]
  exact not_congr (valid.trans (and_iff_right digest))

end

theorem wellFormed_new : new.WellFormed := wellFormed_empty predefinedEntities (by decide)

theorem new_trees : new.content.trees = ∅ :=
  Set.eq_empty_iff_forall_notMem.mpr fun _ ⟨_, inside, _⟩ => absurd inside (Nat.not_lt_zero _)

/-- A new builder only has its predefined entities, which merging does not double. -/
theorem new_content_add_new : new.content + new.content = new.content := by
  have counts : new.content.counts = 0 := funext fun expression =>
    show new.occurrence expression = 0 from occurrence_absent (by rw [new_trees]; exact id)
  have properties : new.content.properties = 0 := funext fun _ => rfl
  have features : new.content.features = 0 := funext fun feature => by
    change (List.replicate FEATURE_VECTOR_LENGTH 0).getD feature 0 = 0
    rw [List.getD_eq_getElem?_getD, List.getElem?_replicate]
    split <;> rfl
  refine Content.ext (Set.union_self _) (Set.union_self _) ?_ ?_ (Set.union_self _) (Set.union_self _) ?_
  · rw [Content.add_counts, counts, add_zero]
  · rw [Content.add_properties, properties, add_zero]
  · rw [Content.add_features, features, add_zero]

end MutableIndex

/-- A way to put an ontology together: transactions are committed one after the other, and
builders are merged. -/
inductive Assembly
  | new
  | commit (builder : Assembly) (transaction : MutableIndex)
  | merge (builder other : Assembly)

namespace Assembly

def transactions : Assembly → List MutableIndex
  | new => []
  | commit builder transaction => builder.transactions ++ [transaction]
  | merge builder other => builder.transactions ++ other.transactions

/-- The `OntologyBuilder` that holds the transactions, unless a counter overflows on the way. -/
def builder : Assembly → Option MutableIndex
  | new => some MutableIndex.new
  | commit builder transaction => do
    let index ← builder.builder
    pure (← index.merge transaction).1
  | merge builder other => do
    let index ← builder.builder
    let merged ← other.builder
    pure (← index.merge merged).1

def freeze (assembly : Assembly) (sourceFingerprint : List UInt8) : Option CompiledOntology :=
  assembly.builder.bind fun index => index.freeze sourceFingerprint

/-- What the builder holds once all transactions are in. -/
noncomputable def content (assembly : Assembly) : Content :=
  MutableIndex.new.content + (assembly.transactions.map MutableIndex.content).sum

variable {assembly other : Assembly}

theorem content_commit (assembly : Assembly) (transaction : MutableIndex) :
    (assembly.commit transaction).content = assembly.content + transaction.content := by
  simp only [content, transactions, List.map_append, List.sum_append, List.map_singleton,
    List.sum_singleton, add_assoc]

theorem content_merge (assembly other : Assembly) :
    (assembly.merge other).content = assembly.content + other.content := by
  simp only [content, transactions, List.map_append, List.sum_append]
  conv_lhs => rw [← MutableIndex.new_content_add_new]
  exact add_add_add_comm _ _ _ _

/-- A builder holds the contents of its transactions, and exists when no counter overflows. -/
theorem builder_spec (assembly : Assembly)
    (wellFormed : ∀ transaction ∈ assembly.transactions, transaction.WellFormed) :
    (∀ index, assembly.builder = some index → index.WellFormed ∧ index.content = assembly.content) ∧
    (assembly.content.Fits → assembly.builder.isSome) := by
  induction assembly with
  | new =>
    refine ⟨fun index built => ?_, fun _ => rfl⟩
    cases built
    exact ⟨MutableIndex.wellFormed_new, (add_zero _).symm⟩
  | commit builder transaction ih =>
    obtain ⟨old, single⟩ := List.forall_mem_append.mp wellFormed
    obtain ⟨spec, built⟩ := ih old
    have merging := List.forall_mem_singleton.mp single
    rw [content_commit]
    constructor
    · intro index done
      obtain ⟨middle, before, done⟩ := Option.bind_eq_some_iff.mp done
      obtain ⟨⟨later, mapping⟩, merged, last⟩ := Option.bind_eq_some_iff.mp done
      cases last
      obtain ⟨wellFormed', same⟩ := spec middle before
      obtain ⟨wellFormed'', -, -, sum⟩ := (wellFormed'.merge_spec merging).1 _ _ merged
      exact ⟨wellFormed'', sum.trans (congrArg (· + transaction.content) same)⟩
    · intro fits
      obtain ⟨middle, before⟩ := Option.isSome_iff_exists.mp (built fits.left)
      obtain ⟨wellFormed', same⟩ := spec middle before
      rw [← same] at fits
      obtain ⟨pair, merged⟩ := Option.isSome_iff_exists.mp ((wellFormed'.merge_spec merging).2 fits)
      exact Option.isSome_iff_exists.mpr ⟨pair.1, Option.bind_eq_some_iff.mpr ⟨middle, before,
        Option.bind_eq_some_iff.mpr ⟨pair, merged, rfl⟩⟩⟩
  | merge builder other ih ih' =>
    obtain ⟨left, right⟩ := List.forall_mem_append.mp wellFormed
    obtain ⟨spec, built⟩ := ih left
    obtain ⟨spec', built'⟩ := ih' right
    rw [content_merge]
    constructor
    · intro index done
      obtain ⟨middle, before, done⟩ := Option.bind_eq_some_iff.mp done
      obtain ⟨merging, before', done⟩ := Option.bind_eq_some_iff.mp done
      obtain ⟨⟨later, mapping⟩, merged, last⟩ := Option.bind_eq_some_iff.mp done
      cases last
      obtain ⟨wellFormed', same⟩ := spec middle before
      obtain ⟨wellFormed'', same'⟩ := spec' merging before'
      obtain ⟨result, -, -, sum⟩ := (wellFormed'.merge_spec wellFormed'').1 _ _ merged
      exact ⟨result, by rw [sum, same, same']⟩
    · intro fits
      obtain ⟨middle, before⟩ := Option.isSome_iff_exists.mp (built fits.left)
      obtain ⟨merging, before'⟩ := Option.isSome_iff_exists.mp (built' fits.right)
      obtain ⟨wellFormed', same⟩ := spec middle before
      obtain ⟨wellFormed'', same'⟩ := spec' merging before'
      rw [← same, ← same'] at fits
      obtain ⟨pair, merged⟩ := Option.isSome_iff_exists.mp ((wellFormed'.merge_spec wellFormed'').2 fits)
      exact Option.isSome_iff_exists.mpr ⟨pair.1, Option.bind_eq_some_iff.mpr ⟨middle, before,
        Option.bind_eq_some_iff.mpr ⟨merging, before', Option.bind_eq_some_iff.mpr ⟨pair, merged, rfl⟩⟩⟩⟩

/-- A counter overflows in one order when it does in every order. -/
theorem builder_eq_none (wellFormed : ∀ transaction ∈ assembly.transactions, transaction.WellFormed) :
    assembly.builder = none ↔ ¬assembly.content.Fits := by
  obtain ⟨spec, built⟩ := assembly.builder_spec wellFormed
  constructor
  · intro missing fits
    have present := built fits
    rw [missing] at present
    cases present
  · intro overflow
    by_contra present
    obtain ⟨index, found⟩ := Option.ne_none_iff_exists'.mp present
    obtain ⟨wellFormed', same⟩ := spec index found
    exact overflow (same ▸ wellFormed'.content_fits)

theorem predefined_subset (wellFormed : ∀ transaction ∈ assembly.transactions, transaction.WellFormed)
    {index : MutableIndex} (built : assembly.builder = some index) : predefinedEntities ⊆ index.entities := by
  intro entity member
  have known : entity ∈ assembly.content.entities := Or.inl member
  rw [← ((assembly.builder_spec wellFormed).1 index built).2] at known
  exact known

/-- Two ways to put the same transactions together freeze to the same ontology. -/
theorem freeze_congr (wellFormed : ∀ transaction ∈ assembly.transactions, transaction.WellFormed)
    (same : assembly.transactions.Perm other.transactions) (sourceFingerprint : List UInt8) :
    assembly.freeze sourceFingerprint = other.freeze sourceFingerprint := by
  have wellFormed' : ∀ transaction ∈ other.transactions, transaction.WellFormed :=
    fun transaction member => wellFormed transaction (same.mem_iff.mpr member)
  have content : assembly.content = other.content :=
    congrArg (MutableIndex.new.content + ·) (same.map MutableIndex.content).sum_eq
  unfold Assembly.freeze
  cases built : assembly.builder with
  | none =>
    have overflow := (builder_eq_none wellFormed).mp built
    rw [content] at overflow
    rw [(builder_eq_none wellFormed').mpr overflow]
  | some index =>
    obtain ⟨first, same⟩ := (assembly.builder_spec wellFormed).1 index built
    have fits := first.content_fits
    rw [same, content] at fits
    obtain ⟨index', built'⟩ := Option.isSome_iff_exists.mp ((other.builder_spec wellFormed').2 fits)
    obtain ⟨second, same'⟩ := (other.builder_spec wellFormed').1 index' built'
    rw [built']
    exact first.freeze_congr second (same.trans (content.trans same'.symm)) sourceFingerprint

end Assembly

/-- Compilation is canonical: the transactions of the converter freeze to one ontology however
they are put together, which passes every check unless ids of 32 bits do not suffice. -/
theorem compilation_canonical (literalKey : Owl.Literal → ElkCompatibilityKey) (nodeLimit : Nat) :
    (∀ (node : Owl.AxiomNode) (transaction : MutableIndex),
      AxiomConverter.convert literalKey nodeLimit node {} = .ok ((), transaction) → transaction.WellFormed) ∧
    ∀ assembly other : Assembly, (∀ transaction ∈ assembly.transactions, transaction.WellFormed) →
      assembly.transactions.Perm other.transactions → ∀ sourceFingerprint : List UInt8,
        sourceFingerprint.length = FINGERPRINT_SIZE →
          assembly.freeze sourceFingerprint = other.freeze sourceFingerprint ∧
          (assembly.builder = none ↔ other.builder = none) ∧
          ∀ index, assembly.builder = some index →
            (index.freeze sourceFingerprint = none ↔ ¬(index.frozenTables sourceFingerprint).IdsFit) ∧
            ((index.frozenTables sourceFingerprint).IdsFit → (index.frozenTables sourceFingerprint).Valid) := by
  refine ⟨fun node transaction done => ?_, fun assembly other wellFormed same sourceFingerprint digest => ?_⟩
  · obtain ⟨_, _, emits⟩ := AxiomConverter.convert_emits
      (MutableIndex.wellFormed_empty [] fun _ member => absurd member List.not_mem_nil) done
    exact emits.wellFormed
  · have wellFormed' : ∀ transaction ∈ other.transactions, transaction.WellFormed :=
      fun transaction member => wellFormed transaction (same.mem_iff.mpr member)
    have content : assembly.content = other.content :=
      congrArg (MutableIndex.new.content + ·) (same.map MutableIndex.content).sum_eq
    refine ⟨Assembly.freeze_congr wellFormed same sourceFingerprint, ?_, fun index built => ?_⟩
    · rw [Assembly.builder_eq_none wellFormed, Assembly.builder_eq_none wellFormed', content]
    · have predefined := Assembly.predefined_subset wellFormed built
      obtain ⟨valid, -⟩ := (assembly.builder_spec wellFormed).1 index built
      exact ⟨valid.freeze_eq_none predefined digest,
        fun fits => ((valid.ready predefined).tables_valid sourceFingerprint).mpr ⟨digest, fits⟩⟩

def managersAreWorkers : Owl.AxiomNode := .subClassOf (.owlClass "ex:Manager") (.owlClass "ex:Worker")

def workersReport : Owl.AxiomNode :=
  .subClassOf (.owlClass "ex:Worker")
    (.objectSomeValuesFrom (.objectProperty "ex:reportsTo") (.owlClass "ex:Manager"))

theorem compilation_canonical_workers :
    ∃ (literalKey : Owl.Literal → ElkCompatibilityKey) (first second : MutableIndex),
    AxiomConverter.convert literalKey 100 managersAreWorkers {} = .ok ((), first) ∧
    AxiomConverter.convert literalKey 100 workersReport {} = .ok ((), second) ∧
    ((Assembly.new.commit first).commit second).freeze (List.replicate FINGERPRINT_SIZE 0) =
      ((Assembly.new.commit second).merge (Assembly.new.commit first)).freeze
      (List.replicate FINGERPRINT_SIZE 0) := by
  let literalKey : Owl.Literal → ElkCompatibilityKey := fun literal =>
    ⟨0 :: literal.lexicalForm.toUTF8.toList, List.cons_ne_nil _ _⟩
  have converts : ∀ node : Owl.AxiomNode, (AxiomConverter.convert literalKey 100 node {}).toOption.isSome = true →
      ∃ transaction, AxiomConverter.convert literalKey 100 node {} = .ok ((), transaction) := by
    intro node succeeds
    match done : AxiomConverter.convert literalKey 100 node {} with
    | .error _ => rw [done] at succeeds; cases succeeds
    | .ok ((), transaction) => exact ⟨transaction, rfl⟩
  obtain ⟨first, done⟩ := converts managersAreWorkers (by decide +kernel)
  obtain ⟨second, done'⟩ := converts workersReport (by decide +kernel)
  obtain ⟨wellFormed, canonical⟩ := compilation_canonical literalKey 100
  refine ⟨literalKey, first, second, done, done', (canonical _ _ ?_ ?_ _ (by decide)).1⟩
  · exact List.forall_mem_cons.mpr ⟨wellFormed _ _ done, List.forall_mem_singleton.mpr (wellFormed _ _ done')⟩
  · exact List.Perm.swap _ _ _

end PyElk
