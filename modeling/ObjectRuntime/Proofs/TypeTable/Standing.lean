import ObjectRuntime.Proofs.TypeTable.Hierarchy
import ObjectRuntime.Proofs.TypeTable.Serving
set_option autoImplicit false

/-!
# Classes that stand side by side

The built-in classes are declared directly below the root.  A key that somebody else has registered
keeps its parent, so where a type stands is a question of who came first.  In an orderly table every
registered class of a list is a child of the root, and none of them is another's descendant.
-/

namespace ObjectRuntime

namespace TypeTable

open Relation (ReflTransGen)

variable {t t' : TypeTable} {c d : ObjectClass} {cs : List ObjectClass} {decl : TypeDecl}
  {i j : Nat} {e : TypeInfo}

/-- If the key of the class is registered, then as a child of the root. -/
def BelowRoot (t : TypeTable) (c : ObjectClass) : Prop :=
  ∀ i e, t.index? c.key = some i → t.typeAt? i = some e → e.parent = rootIndex

/-- A child of the root descends from no other type. -/
theorem Layout.not_derivedFrom_of_child (h : Layout t) (he : t.typeAt? i = some e)
    (hparent : e.parent = rootIndex) (hne : i ≠ j) (hj : j ≠ rootIndex) :
    t.derivedFrom i j = false := by
  rw [Bool.eq_false_iff]
  intro hdesc
  rcases ((h.derivedFrom_iff i j).mp hdesc).cases_head with rfl | ⟨k, ⟨e', he', hk⟩, hrest⟩
  · exact hne rfl
  · obtain rfl := Option.some.inj (he.symm.trans he')
    have hle := h.le_of_descends hrest
    rw [← hk, hparent] at hle
    exact hj (Nat.le_zero.mp hle)

/-- What is registered stays where it stands. -/
theorem BelowRoot.later (hc : t.BelowRoot c) (hregular : t.Regular) (hlater : Later t t')
    (hold : ∃ i, t.index? c.key = some i) : t'.BelowRoot c := by
  intro i e hi he
  obtain ⟨i', hi'⟩ := hold
  obtain rfl := Option.some.inj (hi.symm.trans (hlater.keys _ _ hi'))
  obtain ⟨e', he', -⟩ := hregular.keyed _ _ hi'
  obtain ⟨n, hn⟩ := hlater.types i e' he'
  obtain rfl := Option.some.inj (he.symm.trans hn)
  exact hc i e' hi' he'

/-- Registering a type below the root adds at most its own key, and as a child of the root. -/
theorem BelowRoot.allocate {key : String} {claimed : Option Nat} {childSlots : Nat}
    {overflow : Bool} {answer : Except Fault Nat} (hc : t.BelowRoot c) (hregular : t.Regular)
    (hclaim : ∀ index, claimed = some index → index < firstDynamic ∧ childSlots = 0)
    (step : t.allocate key claimed rootIndex childSlots overflow = (answer, t')) :
    t'.BelowRoot c := by
  obtain ⟨hlater, -⟩ :=
    hregular.allocate (fun i hi => ⟨(hclaim i hi).1, rfl, (hclaim i hi).2⟩) step
  cases hold : t.index? c.key with
  | some i => exact hc.later hregular hlater ⟨i, hold⟩
  | none =>
      rcases allocate_inv step with ⟨index, -, -, rfl⟩ | ⟨-, rfl, -⟩ |
          ⟨hnew, p, t₁, index, hp, hpindex, hplace, hsettle⟩
      · exact hc
      · exact hc
      · have hkeys : t₁.index? c.key = none := by rw [index?, hplace.names.1]; exact hold
        rcases settle_inv hsettle with ⟨hwithin, -, rfl⟩ | ⟨-, rfl⟩
        · intro i e hi he
          simp only [index?, put, lookup_cons_eq] at hi hkeys
          split at hi
          · cases hi
            rw [typeAt?_put_self hwithin] at he
            cases he
            exact hpindex
          · rw [hkeys] at hi
            cases hi
        · intro i e hi
          rw [hkeys] at hi
          cases hi

/-- So does looking up a class that is declared below the root. -/
theorem BelowRoot.touch (hc : t.BelowRoot c) (hregular : t.Regular)
    (hright : (ObjectClass.derived decl .root).Rightful) :
    (t.touch (.derived decl .root)).2.BelowRoot c := by
  have hclaim : ∀ index, decl.claimed = some index →
      index < firstDynamic ∧ decl.childSlots = 0 :=
    fun index hindex => ⟨(hright.2 index hindex).1, (hright.2 index hindex).2.2⟩
  cases hknown : t.known.lookup decl.key with
  | some index =>
      simp only [TypeTable.touch, hknown]
      exact hc
  | none =>
      rcases hstep : t.allocate decl.key decl.claimed rootIndex decl.childSlots
          decl.slotsCanOverflow with ⟨answer, t₁⟩
      have hstood : t₁.BelowRoot c := hc.allocate hregular hclaim hstep
      simp only [TypeTable.touch, hknown, registerUnder, hstep]
      rcases answer with (fault | fault) | index <;> exact hstood

/-- The classes can be had, and those that are registered are children of the root. -/
structure Orderly (cs : List ObjectClass) (t : TypeTable) : Prop where
  serves : t.Serves cs
  below : ∀ c ∈ cs, t.BelowRoot c

namespace Orderly

/-- At the start the root alone is registered. -/
theorem initial : Orderly ObjectClass.builtins TypeTable.initial where
  serves := Roomy.initial.serves
  below c hc i e hi _ := by
    have hunknown : TypeTable.initial.classIndex? c = none := by
      obtain ⟨decl, rfl, -, -⟩ := exists_decl_of_mem_builtins hc
      rfl
    rw [Roomy.initial.unregistered c hc hunknown] at hi
    cases hi

theorem mono {cs' : List ObjectClass} (h : Orderly cs t) (hsub : ∀ c ∈ cs', c ∈ cs) :
    Orderly cs' t :=
  ⟨h.serves.mono hsub, fun c hc => h.below c (hsub c hc)⟩

/-- A built-in class is found, and the table stays orderly. -/
theorem touch (h : Orderly cs t) (hcs : ∀ c ∈ cs, c ∈ ObjectClass.builtins) (hc : c ∈ cs) :
    ∃ first, (t.touch c).1 = .ok first ∧ Orderly cs (t.touch c).2 := by
  have hright : ∀ c ∈ cs, c.Rightful := fun c hc => ObjectClass.rightful_of_mem_builtins (hcs c hc)
  obtain ⟨first, hfirst, hserves⟩ := h.serves.touch hright hc
  obtain ⟨decl, rfl, -, -⟩ := exists_decl_of_mem_builtins (hcs c hc)
  exact ⟨first, hfirst, hserves,
    fun c' hc' => (h.below c' hc').touch h.serves.regular (hright _ hc)⟩

/-- One class descends from another only if it is the same. -/
theorem derivedFrom_eq (h : Orderly cs t) (hc : c ∈ cs) (hd : d.key ≠ ObjectClass.rootKey)
    (hi : t.classIndex? c = some i) (hj : t.classIndex? d = some j) :
    t.derivedFrom i j = decide (c.key = d.key) := by
  have hregular := h.serves.regular
  by_cases hkey : c.key = d.key
  · have hsame : i = j := by
      have hindex := hregular.index?_classIndex hi
      rw [hkey, hregular.index?_classIndex hj] at hindex
      exact (Option.some.inj hindex).symm
    rw [decide_eq_true hkey, hsame]
    exact (hregular.layout.derivedFrom_iff j j).mpr .refl
  · rw [decide_eq_false hkey]
    obtain ⟨e, he, -⟩ := hregular.typeAt?_classIndex hi
    refine hregular.layout.not_derivedFrom_of_child he
      (h.below c hc i e (hregular.index?_classIndex hi) he) ?_ ?_
    · rintro rfl
      exact hkey (hregular.key_injective hi hj)
    · rintro rfl
      exact hd (hregular.key_injective hj (show t.classIndex? .root = _ from rfl))

end Orderly

end TypeTable

end ObjectRuntime
