import PyElk.Reasoning.PropertySpec
import PyElk.Semantics.Interpretation

namespace PyElk

/-- The relation of a local chain. -/
def Interpretation.chainRel {Δ : Type u} (I : Interpretation Δ) (compiled : Tables) (properties : PropertySaturation)
    (chain : PropertyChainId) (x y : Δ) : Prop :=
  ∃ spelled, Spells properties.chains chain spelled ∧ I.path compiled.entities spelled x y

section

variable {Δ : Type u} {I : Interpretation Δ} {compiled : Tables} {properties : PropertySaturation}
  (spec : properties.Spec compiled) {x y z : Δ}

theorem Interpretation.chainRel_links {result : PropertyChainId} {first : EntityId} {suffix : PropertyChainId}
    (links : properties.Links result first suffix) (step : I.rel compiled first x y)
    (rest : I.chainRel compiled properties suffix y z) : I.chainRel compiled properties result x z := by
  obtain ⟨spelled, spells, path⟩ := rest
  exact ⟨first :: spelled, .link links spells, y, step, path⟩

include spec

/-- A chain of one link is read as its property. -/
theorem Interpretation.chainRel_singleton {relation : EntityId}
    (object : compiled.EntityOf relation .objectProperty) :
    I.chainRel compiled properties (properties.singletonChain relation) x y ↔ I.rel compiled relation x y := by
  have single : Spells properties.chains (properties.singletonChain relation) [relation] :=
    .singleton (spec.singleton object)
  constructor
  · rintro ⟨spelled, spells, path⟩
    obtain rfl := spells.unique single
    obtain ⟨z, step, rfl⟩ := path
    exact step
  · exact fun step => ⟨_, single, y, step, rfl⟩

section

variable (valid : compiled.Valid) (satisfies : I.Satisfies compiled)

include valid satisfies

/-- A told super-property holds wherever its chain does. -/
theorem Interpretation.Satisfies.told {chain : PropertyChainId} {super : EntityId}
    (told : (chain, super) ∈ compiled.toldSuperProperties properties)
    (holds : I.chainRel compiled properties chain x y) : I.rel compiled super x y := by
  obtain ⟨⟨index, found⟩, row, same⟩ := List.mem_map.mp told
  simp only [Prod.mk.injEq] at same
  obtain ⟨rfl, rfl⟩ := same
  have bound := (valid.subproperty_lt row).1
  have spelled := spec.compiledChain (List.getElem?_eq_getElem bound)
  obtain ⟨other, spells, path⟩ := holds
  obtain rfl := spells.unique spelled
  exact satisfies.subproperty row (List.getElem?_eq_getElem bound) x y path

/-- A sub-chain of the saturation is included in its super chain. -/
theorem Interpretation.Satisfies.sub {sub super : PropertyChainId} (below : properties.Sub sub super)
    (holds : I.chainRel compiled properties sub x y) : I.chainRel compiled properties super x y := by
  have steps := (spec.sub_iff.mp below).2
  clear below
  induction steps with
  | refl => exact holds
  | tail _ told ih =>
    obtain ⟨property, row, rfl⟩ := told
    have object : compiled.EntityOf property .objectProperty := by
      obtain ⟨⟨index, found⟩, listed, same⟩ := List.mem_map.mp row
      simp only [Prod.mk.injEq] at same
      obtain ⟨rfl, rfl⟩ := same
      exact (valid.subproperty_lt listed).2
    exact (I.chainRel_singleton spec object).mpr (satisfies.told spec valid row ih)

theorem Interpretation.Satisfies.namedSub {property : EntityId} {chain : PropertyChainId}
    (named : properties.NamedSub property chain) (holds : I.rel compiled property x y) :
    I.chainRel compiled properties chain x y := by
  obtain ⟨object, below⟩ := spec.namedSub.mp named
  exact satisfies.sub spec valid below ((I.chainRel_singleton spec object).mpr holds)

/-- Every implied composition is an inclusion of relations. -/
theorem Interpretation.Satisfies.composition {left : EntityId} {right result : PropertyChainId}
    (implied : properties.Implied left right result) (step : I.rel compiled left x y)
    (rest : I.chainRel compiled properties right y z) : I.chainRel compiled properties result x z := by
  obtain ⟨first, suffix, links, below, named⟩ := implied
  have object : compiled.EntityOf first .objectProperty :=
    spec.property _ (List.mem_of_getElem? (show properties.chains[result]? = _ from links))
  refine I.chainRel_links links ?_ (satisfies.sub spec valid below rest)
  exact (I.chainRel_singleton spec object).mp (satisfies.namedSub spec valid named step)

/-- A range of the saturation holds what the property leads to. -/
theorem Interpretation.Satisfies.inherited {property : EntityId} {range : ExpressionId}
    (inherited : range ∈ properties.ranges property) (holds : I.rel compiled property x y) :
    y ∈ I.ext compiled range := by
  obtain ⟨super, row, named⟩ := spec.range_iff.mp inherited
  refine satisfies.range row x y ?_
  exact (I.chainRel_singleton spec (valid.range_lt row).1).mp (satisfies.namedSub spec valid named holds)

end

end

end PyElk
