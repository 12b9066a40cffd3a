import Mathlib.Data.List.Perm.Subperm
import Mathlib.Data.List.ProdSigma
import Mathlib.Logic.Relation
import PyElk.Reasoning.ChainUniverse
import PyElk.Support.Worklist

open Ordered

namespace PyElk

/-- The inference of the property agenda: a told sub-chain of the premise's sub-chain. -/
def propertyRules (told : List (PropertyChainId × PropertyChainId)) : Worklist.Rules SubPropertyChain where
  unary premise conclusion :=
    (premise.subChain, conclusion.subChain) ∈ told ∧ conclusion.superChain = premise.superChain
  binary _ _ _ := False

section

variable {told : List (PropertyChainId × PropertyChainId)} {state : PropertyAgenda} {c : SubPropertyChain}

theorem mem_expandedSubObjectPropertyOf {premise : SubPropertyChain} :
    c ∈ expandedSubObjectPropertyOf told premise ↔ (propertyRules told).unary premise c := by
  obtain ⟨sub, super⟩ := c
  simp only [expandedSubObjectPropertyOf, List.mem_map, List.mem_filter, beq_iff_eq, propertyRules,
    SubPropertyChain.mk.injEq, Prod.exists]
  constructor
  · rintro ⟨_, _, ⟨row, rfl⟩, rfl, rfl⟩
    exact ⟨row, rfl⟩
  · rintro ⟨row, rfl⟩
    exact ⟨_, _, ⟨row, rfl⟩, rfl, rfl⟩

/-- The agenda holds conclusions, each once, and how many fit in the table. -/
structure PropertyAgenda.Coherent (count : Nat) (state : PropertyAgenda) : Prop where
  distinct : state.conclusions.Nodup
  agenda : state.agenda.Nodup
  pending : ∀ c ∈ state.agenda, c ∈ state.conclusions
  bounded : ∀ c ∈ state.conclusions, c.subChain < count ∧ c.superChain < count

theorem PropertyAgenda.mem_addAll {candidates : List SubPropertyChain} :
    c ∈ (state.addAll candidates).conclusions ↔ c ∈ state.conclusions ∨ c ∈ candidates := by
  unfold addAll
  induction candidates generalizing state with
  | nil => simp
  | cons candidate rest ih =>
    rw [List.foldl_cons, ih, List.mem_cons]
    unfold add
    split
    · rename_i known
      constructor
      · rintro (old | new)
        · exact Or.inl old
        · exact Or.inr (Or.inr new)
      · rintro (old | rfl | new)
        · exact Or.inl old
        · exact Or.inl known
        · exact Or.inr new
    · simp only [List.mem_append, List.mem_singleton]
      tauto

/-- Adding candidates keeps coherence; as many conclusions as agenda items are new. -/
theorem PropertyAgenda.Coherent.addAll {count : Nat} {candidates : List SubPropertyChain}
    (coherent : state.Coherent count) (bounded : ∀ c ∈ candidates, c.subChain < count ∧ c.superChain < count) :
    (state.addAll candidates).Coherent count ∧
      (state.addAll candidates).conclusions.length + state.agenda.length =
        state.conclusions.length + (state.addAll candidates).agenda.length ∧
      (∀ c, c ∈ (state.addAll candidates).conclusions → c ∉ (state.addAll candidates).agenda →
        c ∈ state.conclusions ∧ c ∉ state.agenda) := by
  unfold PropertyAgenda.addAll
  induction candidates generalizing state with
  | nil => exact ⟨coherent, rfl, fun _ known idle => ⟨known, idle⟩⟩
  | cons candidate rest ih =>
    have bound := bounded candidate List.mem_cons_self
    have later : ∀ c ∈ rest, c.subChain < count ∧ c.superChain < count :=
      fun c member => bounded c (List.mem_cons_of_mem _ member)
    rw [List.foldl_cons]
    by_cases known : candidate ∈ state.conclusions
    · rw [PropertyAgenda.add, if_pos known]
      exact ih coherent later
    · rw [PropertyAgenda.add, if_neg known]
      have fresh : candidate ∉ state.agenda := fun member => known (coherent.pending candidate member)
      have grown : PropertyAgenda.Coherent count
          ⟨state.conclusions ++ [candidate], state.agenda ++ [candidate]⟩ := by
        refine ⟨?_, ?_, ?_, ?_⟩
        · exact List.nodup_append.mpr ⟨coherent.distinct, List.nodup_singleton _, by
            intro a member b single equal
            rw [equal, List.mem_singleton.mp single] at member
            exact known member⟩
        · exact List.nodup_append.mpr ⟨coherent.agenda, List.nodup_singleton _, by
            intro a member b single equal
            rw [equal, List.mem_singleton.mp single] at member
            exact fresh member⟩
        · intro c member
          rcases List.mem_append.mp member with old | new
          · exact List.mem_append_left _ (coherent.pending c old)
          · exact List.mem_append_right _ new
        · intro c member
          rcases List.mem_append.mp member with old | new
          · exact coherent.bounded c old
          · rw [List.mem_singleton.mp new]
            exact bound
      obtain ⟨after, lengths, kept⟩ := ih grown later
      refine ⟨after, ?_, ?_⟩
      · simp only [List.length_append, List.length_singleton] at lengths
        omega
      · intro c member idle
        obtain ⟨old, quiet⟩ := kept c member idle
        simp only [List.mem_append, List.mem_singleton, not_or] at quiet
        rcases List.mem_append.mp old with old | new
        · exact ⟨old, quiet.1⟩
        · exact absurd (List.mem_singleton.mp new) quiet.2

theorem PropertyAgenda.Coherent.length_le {count : Nat} (coherent : state.Coherent count) :
    state.conclusions.length ≤ count * count := by
  have sub : state.conclusions ⊆
      (List.range count ×ˢ List.range count).map fun row => (⟨row.1, row.2⟩ : SubPropertyChain) := by
    intro c member
    obtain ⟨left, right⟩ := coherent.bounded c member
    exact List.mem_map.mpr ⟨(c.subChain, c.superChain),
      List.mem_product.mpr ⟨List.mem_range.mpr left, List.mem_range.mpr right⟩, rfl⟩
  have le := (coherent.distinct.subperm sub).length_le
  rwa [List.length_map, List.length_product, List.length_range] at le

/-- The conclusions that have left the agenda. -/
def PropertyAgenda.processed (state : PropertyAgenda) : Set SubPropertyChain :=
  {c | c ∈ state.conclusions ∧ c ∉ state.agenda}

/-- The loop empties the agenda within its fuel and keeps the worklist invariant. -/
theorem PropertyAgenda.run_spec {count fuel : Nat} {start : Set SubPropertyChain}
    (toldBound : ∀ row ∈ told, row.2 < count) (coherent : state.Coherent count)
    (progress : Worklist.Progress (propertyRules told) start state.processed {c | c ∈ state.conclusions})
    (enough : count * count + state.agenda.length ≤ state.conclusions.length + fuel) :
    Worklist.Progress (propertyRules told) start {c | c ∈ (state.run told fuel).conclusions}
        {c | c ∈ (state.run told fuel).conclusions} ∧
      ∀ c ∈ state.conclusions, c ∈ (state.run told fuel).conclusions := by
  have idle : ∀ {state : PropertyAgenda}, state.agenda = [] →
      Worklist.Progress (propertyRules told) start state.processed {c | c ∈ state.conclusions} →
      Worklist.Progress (propertyRules told) start {c | c ∈ state.conclusions} {c | c ∈ state.conclusions} := by
    intro state empty progress
    refine progress.shrink fun c member => ⟨member, ?_⟩
    rw [empty]
    exact List.not_mem_nil
  induction fuel generalizing state with
  | zero =>
    have limit := coherent.length_le
    have empty : state.agenda = [] := List.length_eq_zero_iff.mp (by omega)
    exact ⟨idle empty progress, fun c member => member⟩
  | succ fuel ih =>
    obtain ⟨conclusions, agenda⟩ := state
    cases agenda with
    | nil => exact ⟨idle rfl progress, fun c member => member⟩
    | cons premise rest =>
      have popped : PropertyAgenda.Coherent count ⟨conclusions, rest⟩ :=
        ⟨coherent.distinct, (List.nodup_cons.mp coherent.agenda).2,
          fun c member => coherent.pending c (List.mem_cons_of_mem _ member), coherent.bounded⟩
      have premiseKnown := coherent.pending premise List.mem_cons_self
      have bounded : ∀ c ∈ expandedSubObjectPropertyOf told premise, c.subChain < count ∧ c.superChain < count := by
        intro c member
        obtain ⟨row, same⟩ := mem_expandedSubObjectPropertyOf.mp member
        rw [same]
        exact ⟨toldBound _ row, (coherent.bounded premise premiseKnown).2⟩
      obtain ⟨after, lengths, kept⟩ := popped.addAll bounded
      let next := PropertyAgenda.addAll ⟨conclusions, rest⟩ (expandedSubObjectPropertyOf told premise)
      have grown : Worklist.Progress (propertyRules told) start
          (PropertyAgenda.processed ⟨conclusions, premise :: rest⟩) {c | c ∈ next.conclusions} := by
        refine progress.grow (fun c member => PropertyAgenda.mem_addAll.mpr (Or.inl member)) ?_
        intro c member
        rcases PropertyAgenda.mem_addAll.mp member with old | new
        · exact Or.inl old
        · exact Or.inr (.unary (progress.sound premise premiseKnown) (mem_expandedSubObjectPropertyOf.mp new))
      have processed := grown.process (PropertyAgenda.mem_addAll.mpr (Or.inl premiseKnown))
        (fun c rule => PropertyAgenda.mem_addAll.mpr (Or.inr (mem_expandedSubObjectPropertyOf.mpr rule)))
        (fun _ _ _ rule => rule.elim) (fun _ _ _ rule => rule.elim)
      have progress' : Worklist.Progress (propertyRules told) start next.processed {c | c ∈ next.conclusions} := by
        refine processed.shrink ?_
        rintro c ⟨member, quiet⟩
        obtain ⟨old, notRest⟩ := kept c member quiet
        by_cases same : c = premise
        · exact Or.inl same
        · exact Or.inr ⟨old, List.not_mem_cons_of_ne_of_not_mem same notRest⟩
      obtain ⟨final, contained⟩ := ih after progress' (by simp only [List.length_cons] at enough lengths ⊢; omega)
      exact ⟨final, fun c member => contained c (PropertyAgenda.mem_addAll.mpr (Or.inl member))⟩

/-- The closed relation: the tautologies and told rows, closed under told rows
below, however the told rows are looked up. -/
theorem PropertyAgenda.closed_iff {count : Nat} {looked : List (PropertyChainId × PropertyChainId)}
    (lookup : ∀ row, row ∈ looked ↔ row ∈ told) (toldBound : ∀ row ∈ told, row.1 < count ∧ row.2 < count) :
    c ∈ (PropertyAgenda.run looked (count * count)
      (PropertyAgenda.addAll ⟨[], []⟩ (initialSubPropertyChains count told))).conclusions ↔
      c.superChain < count ∧
        Relation.ReflTransGen (fun sub super => (super, sub) ∈ told) c.subChain c.superChain := by
  have initial : ∀ c ∈ initialSubPropertyChains count told, c.subChain < count ∧ c.superChain < count := by
    intro c member
    rcases List.mem_append.mp member with tautology | told
    · obtain ⟨chain, bound, rfl⟩ := List.mem_map.mp tautology
      exact ⟨List.mem_range.mp bound, List.mem_range.mp bound⟩
    · obtain ⟨row, found, rfl⟩ := List.mem_map.mp told
      exact (toldBound row found).symm
  have rules : propertyRules looked = propertyRules told := by
    simp only [propertyRules, lookup]
  have empty : PropertyAgenda.Coherent count ⟨[], []⟩ :=
    ⟨.nil, .nil, fun _ member => absurd member List.not_mem_nil, fun _ member => absurd member List.not_mem_nil⟩
  obtain ⟨coherent, lengths, kept⟩ := empty.addAll initial
  have seeded : Worklist.Progress (propertyRules looked) {c | c ∈ initialSubPropertyChains count told}
      (PropertyAgenda.addAll ⟨[], []⟩ (initialSubPropertyChains count told)).processed
      {c | c ∈ (PropertyAgenda.addAll ⟨[], []⟩ (initialSubPropertyChains count told)).conclusions} := by
    refine (Worklist.Progress.empty.grow (Set.empty_subset _) ?_).shrink ?_
    · intro c member
      exact Or.inr (.start ((PropertyAgenda.mem_addAll.mp member).resolve_left List.not_mem_nil))
    · rintro c ⟨member, quiet⟩
      exact absurd (kept c member quiet).1 List.not_mem_nil
  have enough : count * count + (PropertyAgenda.addAll ⟨[], []⟩ (initialSubPropertyChains count told)).agenda.length ≤
      (PropertyAgenda.addAll ⟨[], []⟩ (initialSubPropertyChains count told)).conclusions.length + count * count := by
    simp only [List.length_nil] at lengths
    omega
  obtain ⟨progress, contained⟩ :=
    PropertyAgenda.run_spec (fun row member => (toldBound row ((lookup row).mp member)).2) coherent seeded enough
  have exact : c ∈ (PropertyAgenda.run looked (count * count)
        (PropertyAgenda.addAll ⟨[], []⟩ (initialSubPropertyChains count told))).conclusions ↔
      (propertyRules told).Derives {c | c ∈ initialSubPropertyChains count told} c := by
    rw [← rules]
    refine progress.finish (fun c member => ?_) subset_rfl c
    exact contained c (PropertyAgenda.mem_addAll.mpr (Or.inr member))
  rw [exact]
  clear exact
  constructor
  · intro derivation
    induction derivation with
    | start member =>
      refine ⟨(initial _ member).2, ?_⟩
      rcases List.mem_append.mp member with tautology | row
      · obtain ⟨chain, _, rfl⟩ := List.mem_map.mp tautology
        exact .refl
      · obtain ⟨row, found, rfl⟩ := List.mem_map.mp row
        exact .single found
    | unary _ rule ih =>
      rw [rule.2]
      exact ⟨ih.1, .head rule.1 ih.2⟩
    | binary _ _ rule => exact rule.elim
  · rintro ⟨bound, path⟩
    obtain ⟨sub, super⟩ := c
    simp only at bound path
    induction path using Relation.ReflTransGen.head_induction_on with
    | refl =>
      exact .start (List.mem_append_left _ (List.mem_map.mpr ⟨super, List.mem_range.mpr bound, rfl⟩))
    | head step _ ih => exact .unary ih ⟨step, rfl⟩

theorem closeSubPropertyChains_iff {count : Nat} (toldBound : ∀ row ∈ told, row.1 < count ∧ row.2 < count) :
    c ∈ closeSubPropertyChains count told ↔
      c.superChain < count ∧ Relation.ReflTransGen (fun sub super => (super, sub) ∈ told) c.subChain c.superChain :=
  PropertyAgenda.closed_iff (fun _ => Iff.rfl) toldBound

end

end PyElk
