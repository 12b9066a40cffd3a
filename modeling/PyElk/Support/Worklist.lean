import Mathlib.Data.Set.Basic
import Mathlib.Order.Bounds.Basic

namespace Worklist

/-- An unordered inference system: rules with one premise and rules with two. -/
structure Rules (F : Type*) where
  unary : F → F → Prop
  binary : F → F → F → Prop

variable {F : Type*} {rules : Rules F} {start more stored known known' : Set F}

def Rules.Closed (rules : Rules F) (facts : Set F) : Prop :=
  (∀ p c, p ∈ facts → rules.unary p c → c ∈ facts) ∧
    ∀ p q c, p ∈ facts → q ∈ facts → rules.binary p q c → c ∈ facts

/-- Derivability from the facts in `start`. -/
inductive Rules.Derives (rules : Rules F) (start : Set F) : F → Prop
  | start {f} : f ∈ start → Derives rules start f
  | unary {p c} : Derives rules start p → rules.unary p c → Derives rules start c
  | binary {p q c} : Derives rules start p → Derives rules start q → rules.binary p q c →
      Derives rules start c

theorem Rules.Derives.least {facts : Set F} (closed : rules.Closed facts) (initial : start ⊆ facts)
    {f : F} (derivation : rules.Derives start f) : f ∈ facts := by
  induction derivation with
  | start member => exact initial member
  | unary _ rule ih => exact closed.1 _ _ ih rule
  | binary _ _ rule left right => exact closed.2 _ _ _ left right rule

/-- The derivable facts are the least closed set over the start facts. -/
theorem Rules.derives_isLeast (rules : Rules F) (start : Set F) :
    IsLeast {facts | start ⊆ facts ∧ rules.Closed facts} {f | rules.Derives start f} := by
  refine ⟨⟨fun f member => .start member, ?_, ?_⟩, ?_⟩
  · intro p c premise rule
    exact .unary premise rule
  · intro p q c left right rule
    exact .binary left right rule
  · intro facts ⟨initial, closed⟩ f derivation
    exact derivation.least closed initial

theorem Rules.Derives.mono (sub : start ⊆ more) {f : F} (derivation : rules.Derives start f) :
    rules.Derives more f := by
  induction derivation with
  | start member => exact .start (sub member)
  | unary _ rule ih => exact .unary ih rule
  | binary _ _ rule left right => exact .binary left right rule

/-- The invariant of a worklist run: everything `known` is derivable, and every
consequence of the premises already processed into `stored` is known. -/
structure Progress (rules : Rules F) (start stored known : Set F) : Prop where
  stored_known : stored ⊆ known
  sound : ∀ f ∈ known, rules.Derives start f
  unary : ∀ p c, p ∈ stored → rules.unary p c → c ∈ known
  binary : ∀ p q c, p ∈ stored → q ∈ stored → rules.binary p q c → c ∈ known

theorem Progress.empty : Progress rules start ∅ ∅ where
  stored_known := subset_rfl
  sound := fun _ member => absurd member (Set.notMem_empty _)
  unary := fun _ _ member => absurd member (Set.notMem_empty _)
  binary := fun _ _ _ member => absurd member (Set.notMem_empty _)

/-- Candidates may join the agenda when they are derivable. -/
theorem Progress.grow (progress : Progress rules start stored known) (sub : known ⊆ known')
    (sound : ∀ f ∈ known', f ∈ known ∨ rules.Derives start f) : Progress rules start stored known' where
  stored_known := progress.stored_known.trans sub
  sound := fun f member => (sound f member).elim (progress.sound f) id
  unary := fun p c premise rule => sub (progress.unary p c premise rule)
  binary := fun p q c left right rule => sub (progress.binary p q c left right rule)

theorem Progress.mono (progress : Progress rules start stored known) (sub : start ⊆ more) :
    Progress rules more stored known where
  stored_known := progress.stored_known
  sound := fun f member => (progress.sound f member).mono sub
  unary := progress.unary
  binary := progress.binary

theorem Progress.shrink {fewer : Set F} (progress : Progress rules start stored known) (sub : fewer ⊆ stored) :
    Progress rules start fewer known where
  stored_known := sub.trans progress.stored_known
  sound := progress.sound
  unary := fun p c premise rule => progress.unary p c (sub premise) rule
  binary := fun p q c left right rule => progress.binary p q c (sub left) (sub right) rule

/-- Processing one known fact: it joins the stored premises once every rule
between it and the stored premises has delivered its conclusion. -/
theorem Progress.process {f : F} (progress : Progress rules start stored known) (member : f ∈ known)
    (unary : ∀ c, rules.unary f c → c ∈ known)
    (left : ∀ q c, q ∈ insert f stored → rules.binary f q c → c ∈ known)
    (right : ∀ q c, q ∈ insert f stored → rules.binary q f c → c ∈ known) :
    Progress rules start (insert f stored) known where
  stored_known := Set.insert_subset member progress.stored_known
  sound := progress.sound
  unary := by
    rintro p c (rfl | old) rule
    · exact unary c rule
    · exact progress.unary p c old rule
  binary := by
    rintro p q c (rfl | oldP) memberQ rule
    · exact left q c memberQ rule
    · rcases memberQ with rfl | oldQ
      · exact right p c (Or.inr oldP) rule
      · exact progress.binary p q c oldP oldQ rule

theorem Progress.closed (progress : Progress rules start stored known) (idle : known ⊆ stored) :
    rules.Closed known :=
  ⟨fun p c premise rule => progress.unary p c (idle premise) rule,
    fun p q c left right rule => progress.binary p q c (idle left) (idle right) rule⟩

/-- A run with every start fact known and nothing pending has computed the
least fixed point. -/
theorem Progress.finish (progress : Progress rules start stored known) (started : start ⊆ known)
    (idle : known ⊆ stored) (f : F) : f ∈ stored ↔ rules.Derives start f := by
  constructor
  · intro member
    exact progress.sound f (progress.stored_known member)
  · intro derivation
    exact idle (derivation.least (progress.closed idle) started)

end Worklist
