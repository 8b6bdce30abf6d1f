import ObjectRuntime.Proofs.Reflection.VariableBinding
set_option autoImplicit false

/-!
# Comparisons that may map free variables

Whether free variables may be mapped matters in one place only: where two different variables meet
that are not being defined.  Without the permission that is a difference, so a comparison without it
that finds none has never been there, and the same comparison with it takes the same steps and binds
the same pairs (`objectsWithin_follows`).

The two comparisons are followed side by side in any monad in which questions can be asked.
`Following` is what has to be known of the monad, and it holds of a world at rest and of a running
program.
-/

namespace ObjectRuntime

namespace Equality

variable {κ α : Type} {m : Type → Type} [Monad m] {w : World κ}

/-- A relation between fallible answers which says that the second is the first if that one finds no
difference. -/
structure Following (R : m (Option Binding) → m (Option Binding) → Prop) : Prop where
  refl : ∀ x, R x x
  difference : ∀ y, R (pure none) y
  after : ∀ {α : Type} (x : m α) {f g : α → m (Option Binding)},
    (∀ a, R (f a) (g a)) → R (x >>= f) (x >>= g)
  next : ∀ {x y : m (Option Binding)} {f g : Option Binding → m (Option Binding)},
    R x y → f none = pure none → (∀ b, R (f (some b)) (g (some b))) → R (x >>= f) (y >>= g)

/-- The second comparison follows the first one, whatever is bound. -/
def Follows (R : m (Option Binding) → m (Option Binding) → Prop) (c c' : Comparison m) : Prop :=
  ∀ b, R (c b) (c' b)

namespace Following

variable {R : m (Option Binding) → m (Option Binding) → Prop} (hR : Following R)
include hR

theorem difference_follows (c : Comparison m) : Follows R (check false) c :=
  fun b => hR.difference (c b)

theorem both {first first' second second' : Comparison m} (hfirst : Follows R first first')
    (hsecond : Follows R second second') : Follows R (both first second) (both first' second') :=
  fun b => hR.next (hfirst b) rfl hsecond

theorem all {f f' : α → Comparison m} (h : ∀ a, Follows R (f a) (f' a)) (as : List α) :
    Follows R (all f as) (all f' as) := by
  induction as with
  | nil => exact fun b => hR.refl _
  | cons a as ih => exact hR.both (h a) ih

theorem binding {c c' : Comparison m} (l r : ObjId) (h : Follows R c c') :
    Follows R (binding l r c) (binding l r c') :=
  fun b => hR.next (h b) rfl fun _ => hR.refl _

/-! ### Parts of objects -/

variable {inner inner' : Inner m}
  (hobjects : ∀ l r d, Follows R (inner.objects l r d) (inner'.objects l r d))
include hobjects

theorem refs (left right : Ref) (d : Bool) :
    Follows R (inner.refs left right d) (inner'.refs left right d) := by
  cases left with
  | none => cases right <;> exact fun b => hR.refl _
  | some l =>
      cases right with
      | none => exact fun b => hR.refl _
      | some r => exact hobjects l r d

theorem attr (pair : Attr × Attr) : Follows R (inner.attr pair) (inner'.attr pair) := by
  unfold Inner.attr Inner.values
  split_ifs
  · split
    · exact hobjects _ _ _
    · exact fun b => hR.refl _
    · exact fun b => hR.refl _
  · exact fun b => hR.refl _

variable [Inquiry m]

theorem attrs (w : World κ) (l r : ObjId) :
    Follows R (inner.attrs w l r) (inner'.attrs w l r) := fun b => by
  refine hR.after _ fun left => hR.after _ fun right => ?_
  split
  · split_ifs
    · exact hR.all (hR.attr hobjects) _ b
    · exact hR.refl _
  · exact hR.refl _

theorem entry (w : World κ) (right : List (Ref × Ref)) (d : Bool) (e : Ref × Ref) :
    Follows R (inner.entry w right d e) (inner'.entry w right d e) := fun b => by
  refine hR.after _ fun _ => ?_
  split
  · exact hR.refs hobjects _ _ d b
  · exact hR.refl _

theorem contents (w : World κ) (l r : ObjId) (d : Bool) :
    Follows R (inner.contents w l r d) (inner'.contents w l r d) := by
  unfold Inner.contents
  split
  · exact fun b => hR.refl _
  · exact fun b => hR.refl _
  · split_ifs
    · exact hR.all (fun p : Ref × Ref => hR.refs hobjects p.1 p.2 d) _
    · exact fun b => hR.refl _
  · split_ifs
    · exact hR.all (hR.entry hobjects w _ d) _
    · exact fun b => hR.refl _
  · exact fun b => hR.refl _
  · exact fun b => hR.refl _

/-- A variable that meets another one is the only object of which more may be mapped. -/
theorem nodes (hmap : inner.map = true → inner'.map = true) (w : World κ) (kind : NodeKind)
    (l r : ObjId) (d : Bool) :
    Follows R (inner.nodes w kind l r d) (inner'.nodes w kind l r d) := by
  have hattrs := hR.attrs hobjects w l r
  cases kind with
  | tree =>
      unfold Inner.nodes
      dsimp only
      split_ifs
      · exact fun b => hR.refl _
      · exact hattrs
  | graph => exact hR.binding l r hattrs
  | «variable» =>
      unfold Inner.nodes
      dsimp only
      by_cases hsame : l = r
      · simp only [hsame, if_true]
        exact fun b => hR.refl _
      · by_cases hmapped : (inner.map || d) = true
        · have hmapped' : (inner'.map || d) = true := by
            rw [Bool.or_eq_true] at hmapped ⊢
            exact hmapped.imp_left hmap
          simp only [hsame, hmapped, hmapped', if_true, if_false]
          exact hR.binding l r hattrs
        · simp only [hsame, hmapped, if_false]
          exact hR.difference_follows _

omit hobjects in
/-- Whatever a comparison finds equal and binds, the comparison that may map free variables finds
equal and binds too. -/
theorem objectsWithin_follows (w : World κ) {mapFree mapFree' : Bool}
    (hmap : mapFree = true → mapFree' = true) (depth : Nat) : ∀ l r d,
    Follows R (objectsWithin w mapFree depth l r d) (objectsWithin w mapFree' depth l r d) := by
  induction depth with
  | zero => exact fun l r d b => hR.refl _
  | succ depth ih =>
      intro l r d b
      let inner : Inner m := ⟨mapFree, objectsWithin w mapFree depth⟩
      let inner' : Inner m := ⟨mapFree', objectsWithin w mapFree' depth⟩
      have hobjects : ∀ l r d, Follows R (inner.objects l r d) (inner'.objects l r d) := ih
      by_cases hbarred : (b.isTaken r || w.typeIndex l != w.typeIndex r) = true
      · simp only [objectsWithin, hbarred, if_true]
        exact hR.refl _
      · simp only [objectsWithin, hbarred]
        split
        · exact hR.refl _
        · refine hR.after _ fun _ => ?_
          split
          · exact hR.nodes hobjects hmap w _ l r d b
          · by_cases hsame : l = r
            · simp only [hsame, if_true]
              exact hR.refl _
            · simp only [hsame, if_false]
              exact hR.after _ fun _ => hR.contents hobjects w l r d b

end Following

/-- What is bound after two references have been compared. -/
def bindingOf [Inquiry m] (w : World κ) (mapFree : Bool) (left right : Ref) : m (Option Binding) :=
  Inner.refs ⟨mapFree, objectsWithin w mapFree (w.heap.cells.size + 1)⟩ left right false []

theorem Following.bindingOf [Inquiry m] {R : m (Option Binding) → m (Option Binding) → Prop}
    (hR : Following R) (w : World κ) (left right : Ref) :
    R (bindingOf w false left right) (bindingOf w true left right) :=
  have hobjects := hR.objectsWithin_follows w Bool.noConfusion (w.heap.cells.size + 1)
  hR.refs (show ∀ l r d, Follows R ((⟨false, _⟩ : Inner m).objects l r d)
    ((⟨true, _⟩ : Inner m).objects l r d) from hobjects) left right false []

/-! ### Worlds at rest and running programs -/

theorem following_at_rest :
    Following fun x y : Except Fault _ => ∀ b, x = .ok (some b) → y = .ok (some b) where
  refl _ _ h := h
  difference _ _ h := nomatch h
  after x f g h b hx := by
    obtain ⟨a, ha, hf⟩ := bind_eq_ok.mp hx
    exact bind_eq_ok.mpr ⟨a, ha, h a b hf⟩
  next {x y f g} hxy hnone h b hx := by
    obtain ⟨found, hfound, hf⟩ := bind_eq_ok.mp hx
    cases found with
    | none => cases hnone.symm.trans hf
    | some b₁ => exact bind_eq_ok.mpr ⟨some b₁, hxy b₁ hfound, h b₁ b hf⟩

theorem following_running :
    Following fun x y : Run κ _ =>
      ∀ b w w', x w = (.ok (some b), w') → y w = (.ok (some b), w') where
  refl _ _ _ _ h := h
  difference _ _ _ _ h := nomatch h
  after x f g h b w w' hx := by
    obtain ⟨a, w₁, ha, hf⟩ := run_bind_eq_ok.mp hx
    exact run_bind_eq_ok.mpr ⟨a, w₁, ha, h a b w₁ w' hf⟩
  next {x y f g} hxy hnone h b w w' hx := by
    obtain ⟨found, w₁, hfound, hf⟩ := run_bind_eq_ok.mp hx
    cases found with
    | none =>
        rw [hnone] at hf
        cases hf
    | some b₁ => exact run_bind_eq_ok.mpr ⟨some b₁, w₁, hxy b₁ w w₁ hfound, h b₁ b w₁ w' hf⟩

end Equality

open Equality

variable {κ : Type} {w : World κ} {left right : Ref} {mapFree : Bool}

theorem structuralEqual_eq_true_iff :
    structuralEqual w left right mapFree = .ok true ↔
      ∃ b, (bindingOf w mapFree left right : Except Fault _) = .ok (some b) := by
  constructor
  · intro h
    obtain ⟨found, hfound, hsome⟩ := bind_eq_ok.mp h
    obtain ⟨b, rfl⟩ := Option.isSome_iff_exists.mp (Except.ok.inj hsome)
    exact ⟨b, hfound⟩
  · rintro ⟨b, h⟩
    exact bind_eq_ok.mpr ⟨some b, h, rfl⟩

theorem Reflection.equal_eq_true_iff {w' : World κ} :
    Reflection.equal left right mapFree w = (.ok true, w') ↔
      ∃ b, (bindingOf w mapFree left right : Run κ _) w = (.ok (some b), w') := by
  rw [Reflection.equal, run_get_bind]
  constructor
  · intro h
    obtain ⟨found, w₁, hfound, hsome⟩ := run_bind_eq_ok.mp h
    injection hsome with hsome hw
    obtain ⟨b, rfl⟩ := Option.isSome_iff_exists.mp (Except.ok.inj hsome)
    exact ⟨b, hw ▸ hfound⟩
  · rintro ⟨b, h⟩
    exact run_bind_eq_ok.mpr ⟨some b, w', h, rfl⟩

/-- Graphs that are equal without mapping free variables are equal if these may be mapped, in a
world at rest and in a running program, which is left as it would have been. -/
theorem equal_of_equal_unmapped :
    (structuralEqual w left right false = .ok true → structuralEqual w left right true = .ok true) ∧
    ∀ w', Reflection.equal left right false w = (.ok true, w') →
      Reflection.equal left right true w = (.ok true, w') := by
  refine ⟨fun h => ?_, fun w' h => ?_⟩
  · obtain ⟨b, hb⟩ := structuralEqual_eq_true_iff.mp h
    exact structuralEqual_eq_true_iff.mpr ⟨b, following_at_rest.bindingOf w left right b hb⟩
  · obtain ⟨b, hb⟩ := Reflection.equal_eq_true_iff.mp h
    exact Reflection.equal_eq_true_iff.mpr ⟨b, following_running.bindingOf w left right b w w' hb⟩

/-- `f(x) = [x]` and `g(y) = [y]` are equal, whether free variables may be mapped or not. -/
theorem equal_of_equal_unmapped_renamedParameter :
    structuralEqual renamedParameter (some ⟨6⟩) (some ⟨7⟩) false = .ok true ∧
      structuralEqual renamedParameter (some ⟨6⟩) (some ⟨7⟩) true = .ok true ∧
      ∃ w', Reflection.equal (some ⟨6⟩) (some ⟨7⟩) false renamedParameter = (.ok true, w') ∧
        Reflection.equal (some ⟨6⟩) (some ⟨7⟩) true renamedParameter = (.ok true, w') := by
  have hrest : structuralEqual renamedParameter (some ⟨6⟩) (some ⟨7⟩) false = .ok true := rfl
  obtain ⟨w', hrun⟩ : ∃ w',
      Reflection.equal (some ⟨6⟩) (some ⟨7⟩) false renamedParameter = (.ok true, w') := by
    have hresult : (Reflection.equal (some ⟨6⟩) (some ⟨7⟩) false renamedParameter).1.toOption
        = some true := by decide +kernel
    exact run_of_toOption hresult
  exact ⟨hrest, equal_of_equal_unmapped.1 hrest, w', hrun, equal_of_equal_unmapped.2 w' hrun⟩

end ObjectRuntime
