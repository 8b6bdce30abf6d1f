import ObjectRuntime.Proofs.Reflection.Correspondence
import Mathlib.SetTheory.Cardinal.Order
set_option autoImplicit false

/-!
# Variables of structurally equal graphs

A variable may be replaced by another one if both are first defined at the same place.  Structural
equality does not see to that for objects that both graphs hold: such an object is found equal to
itself wherever it stands, so a variable can be bound to one counterpart and yet stand for itself
elsewhere.  `VariablesAgree` is what one would expect of the variables of equal graphs, `Coherent`
is what the graphs have to keep for it, and `variablesAgree_iff_coherent` says that it is exactly
that.  `swapped_parameters` are two functions that are found equal and do not keep it.
-/

namespace ObjectRuntime

open Equality

variable {κ : Type} {w : World κ} {l r g : Ref} {x y v : ObjId} {p q : List Step} {d e : Bool}
  {before : List Step → List Step → Prop}

namespace World

/-- An access path leads to an object. -/
def LeadsTo (w : World κ) (g : Ref) (path : List Step) (x : ObjId) : Prop :=
  ∃ d, w.follow g path = some ⟨x, d⟩

/-- An access path leads to an object at a place where variables are defined. -/
def DefinedAt (w : World κ) (g : Ref) (path : List Step) (x : ObjId) : Prop :=
  w.follow g path = some ⟨x, true⟩

/-- The first of these paths, in the order in which places are visited. -/
def FirstDefinedAt (before : List Step → List Step → Prop) (w : World κ) (g : Ref)
    (path : List Step) (x : ObjId) : Prop :=
  w.DefinedAt g path x ∧ ∀ q, w.DefinedAt g q x → ¬ before q path

/-- A variable of a graph that stands at no place where variables are defined. -/
def Unbound (w : World κ) (g : Ref) (x : ObjId) : Prop :=
  w.IsVariable x ∧ (∃ path, w.LeadsTo g path x) ∧ ∀ path, ¬ w.DefinedAt g path x

/-- Every path of the left graph to a variable leads in the right one to a variable that is first
defined at the same place, or to the same one if neither graph defines it. -/
def VariablesAgree (before : List Step → List Step → Prop) (w : World κ) (l r : Ref) : Prop :=
  ∀ path x, w.LeadsTo l path x → w.IsVariable x →
    ∃ y, w.LeadsTo r path y ∧ w.IsVariable y ∧
      ((∃ q, w.FirstDefinedAt before l q x ∧ w.FirstDefinedAt before r q y) ∨
        (x = y ∧ (∀ q, ¬ w.DefinedAt l q x) ∧ ∀ q, ¬ w.DefinedAt r q y))

/-- What has to hold of two graphs for their variables to agree. -/
structure Coherent (before : List Step → List Step → Prop) (w : World κ) (l r : Ref) : Prop where
  /-- A variable that both graphs hold at one place stands for itself at every place. -/
  inPlace : ∀ {v p q x y}, w.IsVariable v → w.LeadsTo l p v → w.LeadsTo r p v →
    w.LeadsTo l q x → w.LeadsTo r q y → (x = v ↔ y = v)
  /-- A variable that stands for another one is defined where a path leads. -/
  defined : ∀ {p x y}, w.IsVariable x → w.LeadsTo l p x → w.LeadsTo r p y → x ≠ y →
    ∃ q, w.DefinedAt l q x
  /-- The right graph first defines no such variable at a place that the left one lacks. -/
  definedLeft : ∀ {p q x y}, w.IsVariable y → w.LeadsTo l p x → w.LeadsTo r p y →
    w.FirstDefinedAt before r q y → ∃ z, w.LeadsTo l q z
  /-- The right graph holds no unbound variable only at places that the left one lacks. -/
  unboundLeft : ∀ {y}, w.Unbound r y → ∃ p x, w.LeadsTo l p x ∧ w.LeadsTo r p y

/-! ## Paths -/

theorem DefinedAt.leadsTo (h : w.DefinedAt g p x) : w.LeadsTo g p x := ⟨true, h⟩

/-- A path leads to one object. -/
theorem LeadsTo.unique (hx : w.LeadsTo g p x) (hy : w.LeadsTo g p y) : x = y := by
  obtain ⟨d, hx⟩ := hx
  obtain ⟨e, hy⟩ := hy
  exact (Stop.mk.inj (Option.some.inj (hx.symm.trans hy))).1

/-- A variable that is defined somewhere has a first place where it is. -/
theorem exists_firstDefinedAt (before : List Step → List Step → Prop)
    [IsWellOrder (List Step) before] (h : w.DefinedAt g p x) : ∃ q, w.FirstDefinedAt before g q x := by
  obtain ⟨q, hq, hmin⟩ := WellFounded.has_min (IsWellFounded.wf : WellFounded before) {q | w.DefinedAt g q x} ⟨p, h⟩
  exact ⟨q, hq, hmin⟩

/-- The first place is one. -/
theorem FirstDefinedAt.unique [IsWellOrder (List Step) before]
    (hp : w.FirstDefinedAt before g p x) (hq : w.FirstDefinedAt before g q x) : p = q := by
  rcases trichotomous_of before p q with hlt | heq | hlt
  · exact absurd hlt (hq.2 p hp.1)
  · exact heq
  · exact absurd hlt (hp.2 q hq.1)

end World

open World

/-- Where a path leads in the left graph and in a similar one. -/
theorem Equality.SimilarRefs.follow {b : Binding} (h : SimilarRefs w b l r)
    (hx : w.follow l p = some ⟨x, d⟩) :
    ∃ y, w.follow r p = some ⟨y, d⟩ ∧ w.typeIndex x = w.typeIndex y ∧
      (w.IsVariable x → x = y ∨ (x, y) ∈ b) := by
  obtain ⟨a, rfl, hx⟩ := Option.bind_eq_some_iff.mp hx
  obtain ⟨a', rfl, hsimilar⟩ := h.some_left
  exact hsimilar false p x d hx

theorem isVariable_of_typeIndex (h : w.typeIndex x = w.typeIndex y) (hx : w.IsVariable x) :
    w.IsVariable y := by
  obtain ⟨schema, hschema, hkind⟩ := hx
  exact ⟨schema, by rw [schemaOf?, ← h]; exact hschema, hkind⟩

/-- In similar graphs, objects at one place are variables together. -/
theorem Equality.SimilarRefs.isVariable {b : Binding} (h : SimilarRefs w b l r)
    (hx : w.LeadsTo l p x) (hy : w.LeadsTo r p y) (hvar : w.IsVariable y) : w.IsVariable x := by
  obtain ⟨d, hx⟩ := hx
  obtain ⟨y', hy', htype, -⟩ := h.follow hx
  obtain rfl := hy.unique ⟨d, hy'⟩
  exact isVariable_of_typeIndex htype.symm hvar

/-- What is bound is of one type. -/
theorem Equality.Consistent.typeIndex {b : Binding} (h : Consistent w b) (hxy : (x, y) ∈ b) :
    w.typeIndex x = w.typeIndex y := by
  obtain ⟨y', hy', htype, -⟩ := h.similar hxy false [] x false rfl
  cases hy'
  exact htype

/-- In similar graphs, two variables at one place are the same or bound to each other. -/
theorem Equality.SimilarRefs.same_or_bound {b : Binding} (h : SimilarRefs w b l r)
    (hvar : w.IsVariable x) (hx : w.LeadsTo l p x) (hy : w.LeadsTo r p y) :
    x = y ∨ (x, y) ∈ b := by
  obtain ⟨d, hx⟩ := hx
  obtain ⟨y', hy', -, hbound⟩ := h.follow hx
  obtain rfl := hy.unique ⟨d, hy'⟩
  exact hbound hvar

/-- In similar graphs, a place of definition in one is one in the other. -/
theorem Equality.SimilarRefs.definedAt {b : Binding} (h : SimilarRefs w b l r)
    (hx : w.LeadsTo l p x) (hy : w.LeadsTo r p y) : w.DefinedAt l p x ↔ w.DefinedAt r p y := by
  obtain ⟨d, hx⟩ := hx
  obtain ⟨y', hy', -⟩ := h.follow hx
  obtain rfl := hy.unique ⟨d, hy'⟩
  simp only [DefinedAt, hx, hy', Option.some.injEq, Stop.mk.injEq, true_and]

/-- Both graphs have the same unbound variables. -/
def World.SameUnbound (w : World κ) (l r : Ref) : Prop := ∀ x, w.Unbound l x ↔ w.Unbound r x

variable {b : Binding}

/-- What agreement says of two variables that stand at one place. -/
theorem World.VariablesAgree.at (h : w.VariablesAgree before l r) (hvar : w.IsVariable x)
    (hx : w.LeadsTo l p x) (hy : w.LeadsTo r p y) :
    (∃ q, w.FirstDefinedAt before l q x ∧ w.FirstDefinedAt before r q y) ∨
      (x = y ∧ (∀ q, ¬ w.DefinedAt l q x) ∧ ∀ q, ¬ w.DefinedAt r q y) := by
  obtain ⟨y', hy', -, hplace⟩ := h p x hx hvar
  obtain rfl := hy.unique hy'
  exact hplace

/-- A variable that both graphs hold at one place has to stand for itself. -/
theorem World.VariablesAgree.inPlace [IsWellOrder (List Step) before]
    (hsimilar : SimilarRefs w b l r) (h : w.VariablesAgree before l r) (hv : w.IsVariable v)
    (hl : w.LeadsTo l p v) (hr : w.LeadsTo r p v) (hx : w.LeadsTo l q x) (hy : w.LeadsTo r q y) :
    x = v ↔ y = v := by
  constructor
  · rintro rfl
    rcases h.at hv hx hy with ⟨q₁, hq₁, hq₁'⟩ | ⟨rfl, -⟩
    · rcases h.at hv hl hr with ⟨q₂, hq₂, hq₂'⟩ | ⟨-, hnone, -⟩
      · obtain rfl := hq₁.unique hq₂
        exact hq₁'.1.leadsTo.unique hq₂'.1.leadsTo
      · exact absurd hq₁.1 (hnone q₁)
    · rfl
  · rintro rfl
    rcases h.at (hsimilar.isVariable hx hy hv) hx hy with ⟨q₁, hq₁, hq₁'⟩ | ⟨rfl, -⟩
    · rcases h.at hv hl hr with ⟨q₂, hq₂, hq₂'⟩ | ⟨-, -, hnone⟩
      · obtain rfl := hq₁'.unique hq₂'
        exact hq₁.1.leadsTo.unique hq₂.1.leadsTo
      · exact absurd hq₁'.1 (hnone q₁)
    · rfl

/-- If the variables of similar graphs agree, the graphs are coherent. -/
theorem coherent_of_variablesAgree [IsWellOrder (List Step) before] (hsimilar : SimilarRefs w b l r)
    (h : w.VariablesAgree before l r) (hunbound : w.SameUnbound l r) :
    w.Coherent before l r := by
  constructor
  case inPlace => exact fun hv hl hr hx hy => h.inPlace hsimilar hv hl hr hx hy
  case defined =>
    intro p x y hx hl hr hne
    rcases h.at hx hl hr with ⟨q, hq, -⟩ | ⟨heq, -⟩
    · exact ⟨q, hq.1⟩
    · exact absurd heq hne
  case definedLeft =>
    intro p q x y hy hl hr hfirst
    rcases h.at (hsimilar.isVariable hl hr hy) hl hr with ⟨q', hq', hq''⟩ | ⟨-, -, hnone⟩
    · obtain rfl := hfirst.unique hq''
      exact ⟨x, hq'.1.leadsTo⟩
    · exact absurd hfirst.1 (hnone q)
  case unboundLeft =>
    intro y hy
    obtain ⟨hyvar, ⟨p, hp⟩, hnone⟩ := (hunbound y).mpr hy
    obtain ⟨y', hy', -, ⟨q, hq, -⟩ | ⟨rfl, -⟩⟩ := h p y hp hyvar
    · exact absurd hq.1 (hnone q)
    · exact ⟨p, y, hp, hy'⟩

/-- In coherent graphs, whatever stands for a variable somewhere stands for it everywhere. -/
theorem World.Coherent.stands_for {x' y' : ObjId} (h : w.Coherent before l r) (hb : Consistent w b)
    (hsimilar : SimilarRefs w b l r) (hvar : w.IsVariable x) (hx : w.LeadsTo l p x)
    (hy : w.LeadsTo r p y) (hx' : w.LeadsTo l q x') (hy' : w.LeadsTo r q y') :
    x' = x ↔ y' = y := by
  by_cases hxy : x = y
  · subst hxy
    exact h.inPlace hvar hx hy hx' hy'
  have hbound : (x, y) ∈ b := (hsimilar.same_or_bound hvar hx hy).resolve_left hxy
  have hyvar : w.IsVariable y := isVariable_of_typeIndex (hb.typeIndex hbound) hvar
  constructor
  · rintro rfl
    rcases hsimilar.same_or_bound hvar hx' hy' with rfl | hbound'
    · exact absurd ((h.inPlace hvar hx' hy' hx hy).mp rfl) (Ne.symm hxy)
    · exact ((hb.oneToOne hbound' hbound).mp rfl)
  · rintro rfl
    have hx'var : w.IsVariable x' := hsimilar.isVariable hx' hy' hyvar
    rcases hsimilar.same_or_bound hx'var hx' hy' with rfl | hbound'
    · exact absurd ((h.inPlace hyvar hx' hy' hx hy).mpr rfl) hxy
    · exact ((hb.oneToOne hbound' hbound).mpr rfl)

/-- The variables of similar graphs that are coherent agree. -/
theorem variablesAgree_of_coherent [IsWellOrder (List Step) before] (hb : Consistent w b)
    (hsimilar : SimilarRefs w b l r) (h : w.Coherent before l r) : w.VariablesAgree before l r := by
  rintro p x ⟨d, hx⟩ hvar
  obtain ⟨y, hy, htype, -⟩ := hsimilar.follow hx
  have hyvar := isVariable_of_typeIndex htype hvar
  have hstands : ∀ {q x' y'}, w.LeadsTo l q x' → w.LeadsTo r q y' → (x' = x ↔ y' = y) :=
    fun hx' hy' => h.stands_for hb hsimilar hvar ⟨d, hx⟩ ⟨d, hy⟩ hx' hy'
  have hright : ∀ {q}, w.DefinedAt l q x → w.DefinedAt r q y := by
    intro q hq
    obtain ⟨y', hy', -⟩ := hsimilar.follow hq
    obtain rfl := (hstands hq.leadsTo ⟨_, hy'⟩).mp rfl
    exact hy'
  have hleft : ∀ {q}, w.FirstDefinedAt before r q y → w.DefinedAt l q x := by
    intro q hq
    obtain ⟨z, hz⟩ := h.definedLeft hyvar ⟨d, hx⟩ ⟨d, hy⟩ hq
    obtain rfl := (hstands hz hq.1.leadsTo).mpr rfl
    exact (hsimilar.definedAt hz hq.1.leadsTo).mpr hq.1
  refine ⟨y, ⟨d, hy⟩, hyvar, ?_⟩
  by_cases hdefined : ∃ q, w.DefinedAt l q x
  · obtain ⟨q, hq⟩ := hdefined
    obtain ⟨q₁, hq₁⟩ := exists_firstDefinedAt before hq
    obtain ⟨q₂, hq₂⟩ := exists_firstDefinedAt before (hright hq)
    have heq : q₁ = q₂ := by
      rcases trichotomous_of before q₁ q₂ with hlt | heq | hlt
      · exact absurd hlt (hq₂.2 q₁ (hright hq₁.1))
      · exact heq
      · exact absurd hlt (hq₁.2 q₂ (hleft hq₂))
    exact .inl ⟨q₁, hq₁, heq ▸ hq₂⟩
  · have hnone : ∀ q, ¬ w.DefinedAt l q x := fun q hq => hdefined ⟨q, hq⟩
    refine .inr ⟨?_, hnone, fun q hq => ?_⟩
    · by_contra hne
      exact hdefined (h.defined hvar ⟨d, hx⟩ ⟨d, hy⟩ hne)
    · obtain ⟨q', hq'⟩ := exists_firstDefinedAt before hq
      exact hnone q' (hleft hq')

/-- Similar graphs whose variables agree have the same unbound ones, if the right one holds none only
at places of its own. -/
theorem sameUnbound_of_coherent (hsimilar : SimilarRefs w b l r)
    (h : w.Coherent before l r) (hagree : w.VariablesAgree before l r) : w.SameUnbound l r := by
  intro x
  constructor
  · rintro ⟨hvar, ⟨p, hp⟩, hnone⟩
    obtain ⟨y, hy, hyvar, ⟨q, hq, -⟩ | ⟨rfl, -, hnone'⟩⟩ := hagree p x hp hvar
    · exact absurd hq.1 (hnone q)
    · exact ⟨hvar, ⟨p, hy⟩, hnone'⟩
  · intro hx
    obtain ⟨p, z, hz, hp⟩ := h.unboundLeft hx
    obtain ⟨hvar, -, hnone⟩ := hx
    obtain ⟨y, hy, -, hplace⟩ := hagree p z hz (hsimilar.isVariable hz hp hvar)
    obtain rfl := hp.unique hy
    rcases hplace with ⟨q, -, hq⟩ | ⟨rfl, hnone', -⟩
    · exact absurd hq.1 (hnone q)
    · exact ⟨hvar, ⟨p, hz⟩, hnone'⟩

/-- Of two equal graphs without cycles, the variables agree exactly if the graphs are coherent. -/
theorem variablesAgree_iff_coherent [IsWellOrder (List Step) before] (hl : w.Acyclic l)
    (hr : w.Acyclic r) (h : structuralEqual w l r false = .ok true) :
    w.VariablesAgree before l r ∧ w.SameUnbound l r ↔ w.Coherent before l r := by
  obtain ⟨b, hb, hsimilar⟩ := similar_of_structuralEqual hl hr h
  constructor
  · exact fun hagree => coherent_of_variablesAgree hsimilar hagree.1 hagree.2
  · intro hcoherent
    have hagree := variablesAgree_of_coherent hb hsimilar hcoherent
    exact ⟨hagree, sameUnbound_of_coherent hsimilar hcoherent hagree⟩

/-! ## Functions whose parameters are swapped -/

/-- Two variables of one name, and functions `params ↦ body` over them. -/
def functionsOver (objects : List (Object Unit)) : World Unit :=
  { (World.initial : World Unit) with
    schemas := [(8, ⟨.leaf "test.Var", .variable, [⟨"name", .text, .use⟩]⟩),
      (9, ⟨.leaf "test.Func", .tree,
        [⟨"params", .ref .object, .definition⟩, ⟨"body", .ref .object, .use⟩]⟩)]
    heap := ⟨((⟨8, 4, .node [.text "v"]⟩ :: ⟨8, 4, .node [.text "v"]⟩ :: objects).map some).toArray,
      []⟩ }

/-- `f(x, y) = [x, y]` and `g(y, x) = [x, y]`, where both functions hold the same body. -/
def swappedParameters : World Unit := functionsOver
  [⟨4, 1, .array [some ⟨0⟩, some ⟨1⟩]⟩, ⟨4, 1, .array [some ⟨1⟩, some ⟨0⟩]⟩,
    ⟨4, 2, .array [some ⟨0⟩, some ⟨1⟩]⟩, ⟨9, 1, .node [.object .object ⟨2⟩, .object .object ⟨4⟩]⟩,
    ⟨9, 1, .node [.object .object ⟨3⟩, .object .object ⟨4⟩]⟩]

/-- The functions are found equal, though the first parameter of one is the second of the other in the
same body. -/
theorem swappedParameters_not_variablesAgree :
    swappedParameters.Acyclic (some ⟨5⟩) ∧ swappedParameters.Acyclic (some ⟨6⟩) ∧
      structuralEqual swappedParameters (some ⟨5⟩) (some ⟨6⟩) false = .ok true ∧
      ∀ (before : List Step → List Step → Prop) [IsWellOrder (List Step) before],
        ¬ swappedParameters.VariablesAgree before (some ⟨5⟩) (some ⟨6⟩) := by
  have hl : swappedParameters.Acyclic (some ⟨5⟩) := fun a _ => acyclicAt_of_isOrdered rfl a
  have hr : swappedParameters.Acyclic (some ⟨6⟩) := fun a _ => acyclicAt_of_isOrdered rfl a
  have hequal : structuralEqual swappedParameters (some ⟨5⟩) (some ⟨6⟩) false = .ok true := rfl
  refine ⟨hl, hr, hequal, fun before _ hagree => ?_⟩
  obtain ⟨b, -, hsimilar⟩ := similar_of_structuralEqual hl hr hequal
  have hstands : (⟨0⟩ : ObjId) = ⟨0⟩ ↔ (⟨1⟩ : ObjId) = ⟨0⟩ :=
    hagree.inPlace hsimilar (p := [.attr "body", .index 0]) (q := [.attr "params", .index 0])
      ⟨_, rfl, rfl⟩ ⟨false, rfl⟩ ⟨false, rfl⟩ ⟨true, rfl⟩ ⟨true, rfl⟩
  exact absurd (hstands.mp rfl) (by decide)

/-- `f(x) = [x]` and `g(y) = [y]`, which share nothing. -/
def renamedParameter : World Unit := functionsOver
  [⟨4, 1, .array [some ⟨0⟩]⟩, ⟨4, 1, .array [some ⟨0⟩]⟩, ⟨4, 1, .array [some ⟨1⟩]⟩,
    ⟨4, 1, .array [some ⟨1⟩]⟩, ⟨9, 1, .node [.object .object ⟨2⟩, .object .object ⟨3⟩]⟩,
    ⟨9, 1, .node [.object .object ⟨4⟩, .object .object ⟨5⟩]⟩]

theorem renamedParameter_variablesAgree_iff :
    renamedParameter.Acyclic (some ⟨6⟩) ∧ renamedParameter.Acyclic (some ⟨7⟩) ∧
      structuralEqual renamedParameter (some ⟨6⟩) (some ⟨7⟩) false = .ok true ∧
      (renamedParameter.VariablesAgree WellOrderingRel (some ⟨6⟩) (some ⟨7⟩) ∧
        renamedParameter.SameUnbound (some ⟨6⟩) (some ⟨7⟩) ↔
          renamedParameter.Coherent WellOrderingRel (some ⟨6⟩) (some ⟨7⟩)) := by
  have hl : renamedParameter.Acyclic (some ⟨6⟩) := fun a _ => acyclicAt_of_isOrdered rfl a
  have hr : renamedParameter.Acyclic (some ⟨7⟩) := fun a _ => acyclicAt_of_isOrdered rfl a
  exact ⟨hl, hr, rfl, variablesAgree_iff_coherent hl hr rfl⟩

end ObjectRuntime
