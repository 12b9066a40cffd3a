import PyElk.Indexing.Interruption
import PyElk.Indexing.PinnedFeatures

open Raising

namespace PyElk

/-- One isolated conversion. -/
structure IndexTransaction where
  index : MutableIndex := {}
  closed : Bool := false
  deriving DecidableEq, Repr

/-- What a call returns or raises, the builder it leaves and the transaction it leaves. -/
structure Turn (α : Type) where
  result : Except BuilderError α
  builder : MutableIndex
  transaction : IndexTransaction

/-- `commit_into`: the transaction is closed once the merge is through. -/
def IndexTransaction.commitInto (transaction : IndexTransaction) (target : MutableIndex) : Turn (List Nat) :=
  if transaction.closed then ⟨.error .runtimeError, target, transaction⟩
  else
    match Mutation.merge transaction.index target with
    | (.ok mapping, later) => ⟨.ok mapping, later, { transaction with closed := true }⟩
    | (.error raised, later) => ⟨.error raised, later, transaction⟩

/-- `rollback`. -/
def IndexTransaction.rollback (transaction : IndexTransaction) : Except BuilderError Unit × IndexTransaction :=
  if transaction.closed then (.error .runtimeError, transaction) else (.ok (), { closed := true })

section

variable (literalKey : Owl.Literal → ElkCompatibilityKey) (nodeLimit : Nat)

/-- One axiom in the loop of `compile_ontology`. A conversion that raises has written into its own transaction:
`written` is what it holds then. -/
def compileAxiom (refuse : Bool) (node : Owl.AxiomNode) (written builder : MutableIndex) : Turn Unit :=
  match AxiomConverter.convert literalKey nodeLimit node {} with
  | .error (.unsupportedConstruct feature) =>
    match IndexTransaction.rollback { index := written } with
    | (.error raised, transaction) => ⟨.error raised, builder, transaction⟩
    | (.ok (), transaction) =>
      let recorded : Mutation Unit := do
        Mutation.addFeature (featureIndex feature) 1
        if refuse then raise (.unsupportedFeatureError feature)
      let (result, later) := recorded builder
      ⟨result, later, transaction⟩
  | .error raised => ⟨.error (.conversionError raised), builder, { index := written }⟩
  | .ok ((), index) =>
    let turn := IndexTransaction.commitInto { index := index } builder
    ⟨turn.result.map fun _ => (), turn.builder, turn.transaction⟩

/-- The builders that a program holds: what a call leaves behind counts, whatever it raises. -/
inductive Reachable : MutableIndex → Prop
  | new : Reachable .new
  | compiled {builder : MutableIndex} (refuse : Bool) (node : Owl.AxiomNode) (written : MutableIndex) :
    Reachable builder → Reachable (compileAxiom literalKey nodeLimit refuse node written builder).builder
  | featured {builder : MutableIndex} (position count : Nat) :
    Reachable builder → Reachable (Mutation.addFeature position count builder).2
  | merged {target source : MutableIndex} :
    Reachable target → Reachable source → Reachable (Mutation.merge source target).2

end

/-- The builder with one more failure of a feature. -/
def MutableIndex.countFailure (builder : MutableIndex) (feature : String) : MutableIndex :=
  { builder with
    featureCounts :=
      builder.featureCounts.set (featureIndex feature) (builder.featureCounts.getD (featureIndex feature) 0 + 1) }

/-- A conversion that raised leaves no trace but its feature count, and its transaction is rolled back. -/
structure Turn.RecordsFailure (turn : Turn Unit) (builder : MutableIndex) (feature : String) : Prop where
  recorded : turn.builder = builder.countFailure feature
  position : featureIndex feature < builder.featureCounts.length
  rolledBack : turn.transaction = { closed := true }

/-- A commit completes with all of the transaction accounted for, or raises and leaves the target as it was; in both
cases the transaction is closed. -/
structure Turn.Commits (turn : Turn (List Nat)) (target source : MutableIndex) : Prop where
  atomic : (∃ mapping, turn.result = .ok mapping ∧ turn.builder.content = target.content + source.content ∧
      source.Maps turn.builder mapping ∧ mapping.length = source.expressions.length) ∨
    (∃ raised, turn.result = .error raised) ∧ target.Same turn.builder
  closed : turn.transaction.closed = true

section

variable {literalKey : Owl.Literal → ElkCompatibilityKey} {nodeLimit : Nat} {builder : MutableIndex}

theorem commitInto_open {index target : MutableIndex} :
    (IndexTransaction.commitInto { index := index } target).builder = (Mutation.merge index target).2 ∧
      (IndexTransaction.commitInto { index := index } target).result = (Mutation.merge index target).1 := by
  unfold IndexTransaction.commitInto
  rw [if_neg Bool.false_ne_true]
  cases outcome : Mutation.merge index target with
  | mk result later =>
    cases result with
    | ok mapping => exact ⟨rfl, rfl⟩
    | error raised => exact ⟨rfl, rfl⟩

theorem convert_wellFormed {node : Owl.AxiomNode} {index : MutableIndex}
    (done : AxiomConverter.convert literalKey nodeLimit node {} = .ok ((), index)) : index.WellFormed := by
  obtain ⟨_, _, emits⟩ := AxiomConverter.convert_emits
    (MutableIndex.wellFormed_empty [] fun _ member => absurd member List.not_mem_nil) done
  exact emits.wellFormed

theorem addFeature_wellFormed (wellFormed : builder.WellFormed) (position count : Nat) :
    (Mutation.addFeature position count builder).2.WellFormed := by
  obtain ⟨completes, raises⟩ := Mutation.addFeature_keeps position count builder wellFormed
  cases outcome : (Mutation.addFeature position count builder).1 with
  | ok value => exact completes value _ (Prod.ext outcome rfl)
  | error raised => exact raises raised _ (Prod.ext outcome rfl)

/-- What a refused axiom leaves in the builder is what `add_feature` does. -/
theorem compileAxiom_unsupported {refuse : Bool} {node : Owl.AxiomNode} {feature : String}
    (written builder : MutableIndex)
    (failed : AxiomConverter.convert literalKey nodeLimit node {} = .error (.unsupportedConstruct feature)) :
    (compileAxiom literalKey nodeLimit refuse node written builder).builder =
        (Mutation.addFeature (featureIndex feature) 1 builder).2 ∧
      (compileAxiom literalKey nodeLimit refuse node written builder).transaction = { closed := true } := by
  unfold compileAxiom
  rw [failed]
  refine ⟨?_, rfl⟩
  change ((Mutation.addFeature (featureIndex feature) 1 >>= fun _ => _) builder).2 = _
  cases outcome : Mutation.addFeature (featureIndex feature) 1 builder with
  | mk result later =>
    cases result with
    | ok value =>
      rw [bind_ok outcome]
      cases refuse with
      | false => rfl
      | true => rfl
    | error raised => rw [bind_error outcome]

/-- Every builder that a program holds is well formed, also after a merge that raised midway. -/
theorem Reachable.wellFormed (reachable : Reachable literalKey nodeLimit builder) : builder.WellFormed := by
  induction reachable with
  | new => exact MutableIndex.wellFormed_new
  | @compiled builder refuse node written _ ih =>
    cases converted : AxiomConverter.convert literalKey nodeLimit node {} with
    | error raised =>
      by_cases unsupported : ∃ feature, raised = .unsupportedConstruct feature
      · obtain ⟨feature, rfl⟩ := unsupported
        rw [(compileAxiom_unsupported written builder converted).1]
        exact addFeature_wellFormed ih _ _
      · have untouched : (compileAxiom literalKey nodeLimit refuse node written builder).builder = builder := by
          unfold compileAxiom
          rw [converted]
          cases raised with
          | unsupportedConstruct feature => exact absurd ⟨feature, rfl⟩ unsupported
          | overflowError => rfl
          | valueError => rfl
          | typeError => rfl
          | assertionError => rfl
        rw [untouched]
        exact ih
    | ok converted' =>
      obtain ⟨⟨⟩, index⟩ := converted'
      have merged : (compileAxiom literalKey nodeLimit refuse node written builder).builder =
          (Mutation.merge index builder).2 := by
        unfold compileAxiom
        rw [converted]
        exact commitInto_open.1
      rw [merged]
      exact Mutation.merge_keeps (convert_wellFormed converted) ih
  | featured position count _ ih => exact addFeature_wellFormed ih position count
  | merged _ _ target source => exact Mutation.merge_keeps source target

/-- The failure of an axiom is recorded cleanly unless the counter of its feature is full. -/
theorem recordsFailure_iff (wellFormed : builder.WellFormed) {refuse : Bool} {node : Owl.AxiomNode} {feature : String}
    (written : MutableIndex)
    (failed : AxiomConverter.convert literalKey nodeLimit node {} = .error (.unsupportedConstruct feature)) :
    (compileAxiom literalKey nodeLimit refuse node written builder).RecordsFailure builder feature ↔
      builder.featureCounts.getD (featureIndex feature) 0 < U64_MAX := by
  have pinned : feature ∈ ONTOLOGY_FEATURE_NAMES :=
    AxiomConverter.convert_pinned literalKey nodeLimit node {} _ failed
  have inside : featureIndex feature < builder.featureCounts.length := by
    rw [wellFormed.features.1]
    exact List.idxOf_lt_length_of_mem (List.mem_append_left _ pinned)
  obtain ⟨leaves, closed⟩ := @compileAxiom_unsupported _ _ refuse _ _ written builder failed
  have entry := List.getElem?_eq_getElem inside
  have count : builder.featureCounts.getD (featureIndex feature) 0 = builder.featureCounts[featureIndex feature] := by
    rw [List.getD_eq_getElem?_getD, entry, Option.getD_some]
  rw [Mutation.addFeature_some entry, ← count] at leaves
  constructor
  · intro recorded
    by_contra full
    rw [if_neg (show ¬_ + 1 ≤ U64_MAX from full)] at leaves
    have same := congrArg (fun index => index.featureCounts.getD (featureIndex feature) 0)
      (leaves.symm.trans recorded.recorded)
    change builder.featureCounts.getD (featureIndex feature) 0 =
      (builder.featureCounts.set _ _).getD (featureIndex feature) 0
      at same
    rw [@List.getD_eq_getElem?_getD _ (builder.featureCounts.set _ _), List.getElem?_set_self inside,
      Option.getD_some] at same
    omega
  · intro room
    rw [if_pos (show _ + 1 ≤ U64_MAX from room)] at leaves
    exact ⟨leaves, inside, closed⟩

/-- A commit is atomic when its transaction was closed before, or when no counter overflows. -/
theorem commits_iff (wellFormed : builder.WellFormed) {transaction : IndexTransaction}
    (merging : transaction.index.WellFormed) :
    (transaction.commitInto builder).Commits builder transaction.index ↔
      transaction.closed = true ∨ (builder.content + transaction.index.content).Fits := by
  obtain ⟨index, closed⟩ := transaction
  cases closed with
  | true =>
    refine iff_of_true ?_ (Or.inl rfl)
    exact ⟨Or.inr ⟨⟨.runtimeError, rfl⟩, .refl builder⟩, rfl⟩
  | false =>
    obtain ⟨leaves, results⟩ := @commitInto_open index builder
    rw [or_iff_right Bool.false_ne_true]
    constructor
    · intro commits
      by_contra overflows
      obtain ⟨raised, failed⟩ := Mutation.merge_error wellFormed merging overflows
      have still := commits.closed
      unfold IndexTransaction.commitInto at still
      rw [if_neg Bool.false_ne_true,
        show Mutation.merge index builder =
        (.error raised, (Mutation.merge index builder).2) from Prod.ext failed rfl] at still
      exact absurd still Bool.false_ne_true
    · intro fits
      obtain ⟨mapping, done, content, maps, length⟩ := Mutation.merge_ok wellFormed merging fits
      refine ⟨Or.inl ⟨mapping, ?_⟩, ?_⟩
      · rw [leaves, results]
        exact ⟨done, content, maps, length⟩
      · unfold IndexTransaction.commitInto
        rw [if_neg Bool.false_ne_true,
          show Mutation.merge index builder = (.ok mapping, (Mutation.merge index builder).2) from Prod.ext done rfl]

end

/-- Indexing is atomic exactly where no counter overflows, or where the first overflow comes before the first change.
Builders stay well formed through every call, so the conditions are about all that a program can hold. -/
theorem indexing_atomic_iff (literalKey : Owl.Literal → ElkCompatibilityKey) (nodeLimit : Nat) (refuse : Bool) :
    (∀ builder, Reachable literalKey nodeLimit builder → builder.WellFormed) ∧
    ∀ builder : MutableIndex, builder.WellFormed →
      (∀ node feature written,
        AxiomConverter.convert literalKey nodeLimit node {} = .error (.unsupportedConstruct feature) →
          ((compileAxiom literalKey nodeLimit refuse node written builder).RecordsFailure builder feature ↔
            builder.featureCounts.getD (featureIndex feature) 0 < U64_MAX)) ∧
      (∀ source : MutableIndex, source.WellFormed →
        (Mutation.MergesAtomically builder source ↔
          (builder.content + source.content).Fits ∨ builder.Undisturbed source)) ∧
      ∀ transaction : IndexTransaction, transaction.index.WellFormed →
        ((transaction.commitInto builder).Commits builder transaction.index ↔
          transaction.closed = true ∨ (builder.content + transaction.index.content).Fits) :=
  ⟨fun _ reachable => reachable.wellFormed, fun _ wellFormed =>
    ⟨fun _ _ written failed => recordsFailure_iff wellFormed written failed,
      fun _ merging => Mutation.merge_atomic_iff wellFormed merging,
      fun _ merging => commits_iff wellFormed merging⟩⟩

def plainKey (literal : Owl.Literal) : ElkCompatibilityKey :=
  ⟨literal.lexicalForm.toUTF8.toList ++ [0], List.append_ne_nil_of_right_ne_nil _ (List.cons_ne_nil _ _)⟩

def managersOnlyManage : Owl.AxiomNode := .subClassOf (.owlClass "ex:Manager") (.unsupported .objectAllValuesFrom)

def managersKnow : Owl.AxiomNode :=
  .subObjectPropertyOf (.property (.objectProperty "ex:manages")) (.objectProperty "ex:knows")

def manages : EntityRecord := ⟨.objectProperty, "ex:manages"⟩

/-- A builder with one axiom. -/
def knowing : MutableIndex := (compileAxiom plainKey 100 true managersKnow {} .new).builder

/-- The same builder, with the counters of the smaller property full. -/
def knowingAll : MutableIndex := knowing.setProperty manages ⟨U64_MAX, U64_MAX⟩

/-- What the conversion of the axiom hands to a merge: two property rows, the smaller property first. -/
theorem convert_managersKnow : ∃ index, AxiomConverter.convert plainKey 100 managersKnow {} = .ok ((), index) ∧
    index.expressions = [] ∧ index.entities ⊆ knowingAll.entities ∧
    index.propertyOccurrences = [(manages, ⟨1, 0⟩), (⟨.objectProperty, "ex:knows"⟩, ⟨0, 1⟩)] ∧
    (Mutation.merge index knowing).1.toBool = true := by
  have observed : (match AxiomConverter.convert plainKey 100 managersKnow {} with
      | .ok (_, index) => decide (index.expressions = [] ∧ index.entities ⊆ knowingAll.entities ∧
          index.propertyOccurrences = [(manages, ⟨1, 0⟩), (⟨.objectProperty, "ex:knows"⟩, ⟨0, 1⟩)] ∧
          (Mutation.merge index knowing).1.toBool = true)
      | .error _ => false) = true := by decide +kernel
  split at observed
  case h_2 => cases observed
  case h_1 index converted => exact ⟨index, converted, of_decide_eq_true observed⟩

theorem fits_of_merge {builder source : MutableIndex} (wellFormed : builder.WellFormed) (merging : source.WellFormed)
    (done : (Mutation.merge source builder).1.toBool = true) : (builder.content + source.content).Fits := by
  by_contra overflows
  obtain ⟨raised, failed⟩ := Mutation.merge_error wellFormed merging overflows
  rw [failed] at done
  cases done

/-- Merging one axiom again adds its counters. Into the builder whose counter is full, the first addition raises and
nothing has changed by then. -/
theorem indexing_atomic_iff_managers : ∃ source : MutableIndex,
    AxiomConverter.convert plainKey 100 managersKnow {} = .ok ((), source) ∧
      (compileAxiom plainKey 100 true managersOnlyManage {} knowing).RecordsFailure knowing "OBJECT_ALL_VALUES_FROM" ∧
      Mutation.MergesAtomically knowing source ∧
      (IndexTransaction.commitInto { index := source } knowing).Commits knowing source ∧
      Mutation.MergesAtomically knowingAll source ∧ ¬(knowingAll.content + source.content).Fits := by
  obtain ⟨source, converted, leaves, entities, properties, merged⟩ := convert_managersKnow
  have merging := convert_wellFormed converted
  have reachable : Reachable plainKey 100 knowing := .compiled true managersKnow {} .new
  obtain ⟨wellFormed, atomic⟩ := indexing_atomic_iff plainKey 100 true
  have full : knowingAll.WellFormed :=
    ((wellFormed knowing reachable).setProperty (by decide) (by decide +kernel) ⟨le_rfl, le_rfl⟩).wellFormed
  have fits := fits_of_merge (wellFormed knowing reachable) merging merged
  obtain ⟨failures, merges, commits⟩ := atomic knowing (wellFormed knowing reachable)
  have failed : AxiomConverter.convert plainKey 100 managersOnlyManage {} =
      .error (.unsupportedConstruct "OBJECT_ALL_VALUES_FROM") := by
    have observed : (match AxiomConverter.convert plainKey 100 managersOnlyManage {} with
        | .error raised => some raised
        | .ok _ => none) = some (.unsupportedConstruct "OBJECT_ALL_VALUES_FROM") := by decide +kernel
    split at observed
    · rename_i raised found
      rw [found, Option.some.inj observed]
    · cases observed
  have room : knowing.featureCounts.getD (featureIndex "OBJECT_ALL_VALUES_FROM") 0 < U64_MAX := by decide +kernel
  have counters : knowingAll.propertyOccurrences.lookup manages = some ⟨U64_MAX, U64_MAX⟩ := by decide +kernel
  -- the property loop meets the full counter first, after the entities and before any new row
  have refuses : knowingAll.RefusesProperty (manages, ⟨1, 0⟩) := ⟨_, counters, Or.inl (Nat.lt_succ_self U64_MAX)⟩
  have undisturbed : knowingAll.Undisturbed source := by
    refine ⟨entities, Or.inr ⟨fun handle member => ?_, Or.inl ?_⟩⟩
    · rw [leaves] at member
      exact absurd member List.not_mem_nil
    · rw [properties]
      exact Or.inl refuses
  refine ⟨source, converted, (failures _ _ _ failed).mpr room, (merges source merging).mpr (Or.inl fits),
    (commits { index := source } merging).mpr (Or.inr fits),
    ((atomic knowingAll full).2.1 source merging).mpr (Or.inr undisturbed), fun small => ?_⟩
  have sum : ((knowingAll.propertyOccurrences.lookup manages).getD ⟨0, 0⟩ +
      (source.propertyOccurrences.lookup manages).getD ⟨0, 0⟩).Fits := small.properties manages
  rw [counters, properties, List.lookup_cons_self] at sum
  exact absurd sum.1 (Nat.not_succ_le_self U64_MAX)

/-- A builder whose counter of disjointness axioms is full. -/
def crowded : MutableIndex := (Mutation.addFeature (featureIndex "DISJOINT_CLASSES") U64_MAX .new).2

def managersAreNotWorkers : Owl.AxiomNode := .disjointClasses [.owlClass "ex:Manager", .owlClass "ex:Worker"]

/-- One more disjointness axiom is refused, but its classes and its rows stay in the builder, and its transaction
stays open. -/
theorem commit_keeps_refused_rows : ∃ transaction : IndexTransaction,
    AxiomConverter.convert plainKey 100 managersAreNotWorkers {} = .ok ((), transaction.index) ∧
      Reachable plainKey 100 crowded ∧
      (∃ raised, (transaction.commitInto crowded).result = .error raised) ∧
      crowded.expressions = [] ∧ (transaction.commitInto crowded).builder.expressions.length = 4 ∧
      (transaction.commitInto crowded).transaction.closed = false ∧
      ¬Mutation.MergesAtomically crowded transaction.index ∧
      ¬(transaction.commitInto crowded).Commits crowded transaction.index := by
  have observed : (match AxiomConverter.convert plainKey 100 managersAreNotWorkers {} with
      | .ok (_, index) =>
        let turn := IndexTransaction.commitInto { index := index } crowded
        !turn.result.toBool && turn.builder.expressions.length == 4 && !turn.transaction.closed
      | .error _ => false) = true := by decide +kernel
  split at observed
  case h_2 => cases observed
  case h_1 index converted =>
    rw [Bool.and_eq_true, Bool.and_eq_true, Bool.not_eq_true', Bool.not_eq_true', beq_iff_eq] at observed
    obtain ⟨⟨failed, longer⟩, stays⟩ := observed
    have empty : crowded.expressions = [] := by decide +kernel
    have raises : ∃ raised, (IndexTransaction.commitInto { index := index } crowded).result = .error raised := by
      cases outcome : (IndexTransaction.commitInto { index := index } crowded).result with
      | ok mapping =>
        rw [outcome] at failed
        cases failed
      | error raised => exact ⟨raised, rfl⟩
    obtain ⟨leaves, results⟩ := @commitInto_open index crowded
    refine ⟨{ index := index }, converted, .featured _ _ .new, raises, empty, longer, stays, ?_, ?_⟩
    · rintro (⟨mapping, done, -⟩ | ⟨-, same⟩)
      · obtain ⟨raised, failed'⟩ := raises
        rw [results, done] at failed'
        cases failed'
      · rw [leaves, ← same.expressions, empty] at longer
        cases longer
    · intro commits
      have closed := commits.closed
      rw [stays] at closed
      cases closed

end PyElk
