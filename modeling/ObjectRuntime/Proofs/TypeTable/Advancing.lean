import Mathlib.Logic.Relation
import ObjectRuntime.Proofs.TypeTable.Lookups
set_option autoImplicit false

/-!
# Tables that have moved on

A program changes its table of types only by looking classes up, and a class that is looked up may
register other classes on the way even if this fails in the end.  `Advanced` says that this is all
that has happened between two tables.  It holds of every table, while `Later` asks for a regular one
and for classes that claim only what they may.
-/

namespace ObjectRuntime.TypeTable

open Relation (ReflTransGen)

variable {S S' : ObjectClass → Prop} {t t' t'' : TypeTable} {c : ObjectClass} {key : String}
  {i : Nat}

/-- The table after some of the classes in `S` have been looked up, with or without success. -/
def Advanced (S : ObjectClass → Prop) (t t' : TypeTable) : Prop :=
  ReflTransGen (fun t t' => ∃ c, S c ∧ t' = (t.touch c).2) t t'

namespace Advanced

theorem refl (S : ObjectClass → Prop) (t : TypeTable) : Advanced S t t := ReflTransGen.refl

theorem trans (h : Advanced S t t') (h' : Advanced S t' t'') : Advanced S t t'' :=
  ReflTransGen.trans h h'

theorem touch (hc : S c) (t : TypeTable) : Advanced S t (t.touch c).2 := .single ⟨c, hc, rfl⟩

/-- What each lookup keeps is kept by all of them. -/
theorem induct {Q : TypeTable → TypeTable → Prop} (h : Advanced S t t') (hrefl : Q t t)
    (hstep : ∀ c u, S c → Q t u → Q t (u.touch c).2) : Q t t' := by
  induction h with
  | refl => exact hrefl
  | tail _ hlast ih =>
      obtain ⟨c, hc, rfl⟩ := hlast
      exact hstep c _ hc ih

end Advanced

/-! ## Nothing is forgotten -/

/-- A registration adds a key that was not there, if it adds any. -/
theorem index?_allocate {claimed : Option Nat} {parentIndex childSlots : Nat} {overflow : Bool}
    {key' : String} (h : t.index? key = some i) :
    (t.allocate key' claimed parentIndex childSlots overflow).2.index? key = some i := by
  rcases hstep : t.allocate key' claimed parentIndex childSlots overflow with ⟨answer, t'⟩
  rcases allocate_inv hstep with ⟨index, -, -, rfl⟩ | ⟨-, rfl, -⟩ |
      ⟨hnew, p, t₁, index, -, -, hplace, hsettle⟩
  · exact h
  · exact h
  · have hkept : t₁.index? key = some i := (congrArg (List.lookup key) hplace.names.1).trans h
    rcases settle_inv hsettle with ⟨-, -, rfl⟩ | ⟨-, rfl⟩
    · have hne : key ≠ key' := by
        rintro rfl
        rw [hnew] at h
        cases h
      simpa only [index?, put, lookup_cons_eq, if_neg hne] using hkept
    · exact hkept

/-- Looking a class up moves no key. -/
theorem index?_touch (t : TypeTable) (c : ObjectClass) (h : t.index? key = some i) :
    (t.touch c).2.index? key = some i := by
  induction c generalizing t with
  | root => exact h
  | derived decl base ih =>
      have hbase := ih t h
      have hunder : (registerUnder decl (t.touch base)).2.index? key = some i := by
        rcases htouch : t.touch base with ⟨fault | parent, t₁⟩
        all_goals rw [htouch] at hbase
        · exact hbase
        · exact index?_allocate hbase
      unfold TypeTable.touch
      split
      · exact h
      · rcases hreg : registerUnder decl (t.touch base) with ⟨(fault | fault) | index, t₂⟩
        all_goals
          rw [hreg] at hunder
          exact hunder

namespace Advanced

theorem index? (h : Advanced S t t') (hi : t.index? key = some i) : t'.index? key = some i := by
  apply h.induct (Q := fun t t' => t.index? key = some i → t'.index? key = some i)
  · exact id
  · intro c u _ ih hi
    exact index?_touch u c (ih hi)
  · exact hi

theorem classIndex? (h : Advanced S t t') (hi : t.classIndex? c = some i) :
    t'.classIndex? c = some i := by
  apply h.induct (Q := fun t t' => t.classIndex? c = some i → t'.classIndex? c = some i)
  · exact id
  · intro c' u _ ih hi
    exact classIndex?_touch (ih hi)
  · exact hi

/-- Looking up classes that claim only what they may keeps a table regular. -/
theorem later (h : Advanced ObjectClass.Rightful t t') (hregular : Regular t) : Later t t' := by
  apply h.induct
  · exact .refl hregular
  · intro c u hc ih
    exact ih.trans (ih.regular.touch hc).1

end Advanced

end ObjectRuntime.TypeTable
