import ObjectRuntime.Proofs.Reflection.Paths
import ObjectRuntime.Proofs.Sequencing
import ObjectRuntime.Reflection.Equality
set_option autoImplicit false

/-!
# Successful comparisons, taken apart

A comparison that finds no difference has found none in any of its parts.  The lemmas here say so
for each way in which comparisons are put together, in a world at rest; `objectsWithin_inv` is what
one object and its counterpart have been found to have in common.
-/

namespace ObjectRuntime

namespace Equality

variable {κ α : Type} {w : World κ} {b b' : Binding} {l r : ObjId} {d equal mapFree : Bool}
  {depth : Nat}

/-- The comparison finds no difference, and `b'` is bound after it. -/
def Succeeds (c : Comparison (Except Fault)) (b b' : Binding) : Prop := c b = .ok (some b')

theorem check_inv (h : Succeeds (check equal) b b') : equal = true ∧ b' = b := by
  cases equal with
  | true => exact ⟨rfl, (Option.some.inj (Except.ok.inj h)).symm⟩
  | false => exact nomatch h

theorem both_inv {first second : Comparison (Except Fault)}
    (h : Succeeds (both first second) b b') :
    ∃ b₁, Succeeds first b b₁ ∧ Succeeds second b₁ b' := by
  obtain ⟨found, hfirst, h⟩ := bind_eq_ok.mp h
  cases found with
  | none => exact nomatch h
  | some b₁ => exact ⟨b₁, hfirst, h⟩

theorem binding_inv {c : Comparison (Except Fault)} (h : Succeeds (binding l r c) b b') :
    ∃ b₁, Succeeds c b b₁ ∧ b' = (l, r) :: b₁ := by
  obtain ⟨found, hfound, h⟩ := bind_eq_ok.mp h
  cases found with
  | none => exact nomatch h
  | some b₁ => exact ⟨b₁, hfound, (Option.some.inj (Except.ok.inj h)).symm⟩

/-- What every part of a comparison keeps, the whole keeps, and what a part has established holds of
the end. -/
theorem all_keeps {f : α → Comparison (Except Fault)} {Inv : Binding → Prop}
    {R : Binding → Binding → Prop} (Found : α → Binding → Prop) (refl : ∀ b, R b b)
    (trans : ∀ {b₁ b₂ b₃}, R b₁ b₂ → R b₂ b₃ → R b₁ b₃)
    (mono : ∀ {a b₁ b₂}, Found a b₁ → R b₁ b₂ → Found a b₂) :
    ∀ (as : List α) (b : Binding),
      (∀ a ∈ as, ∀ b b', Inv b → Succeeds (f a) b b' → Inv b' ∧ R b b' ∧ Found a b') →
      Inv b → Succeeds (all f as) b b' → Inv b' ∧ R b b' ∧ ∀ a ∈ as, Found a b' := by
  intro as
  induction as with
  | nil =>
      intro b _ hinv h
      obtain ⟨-, rfl⟩ := check_inv h
      exact ⟨hinv, refl _, by simp⟩
  | cons a as ih =>
      intro b step hinv h
      obtain ⟨b₁, hfirst, hrest⟩ := both_inv h
      obtain ⟨hinv₁, hfirst, hfound⟩ := step a (by simp) b b₁ hinv hfirst
      obtain ⟨hinv', hrest, hall⟩ :=
        ih b₁ (fun a ha => step a (List.mem_cons_of_mem _ ha)) hinv₁ hrest
      refine ⟨hinv', trans hfirst hrest, fun a' ha' => ?_⟩
      rcases List.mem_cons.mp ha' with rfl | ha'
      · exact mono hfound hrest
      · exact hall a' ha'

/-! ## Objects -/

/-- A world at rest is asked for attributes without a trace. -/
@[simp] theorem attrs_eq_ok (w : World κ) (id : ObjId) :
    (Inquiry.attrs w id : Except Fault _) = .ok (w.attrs id) := by
  have hask : ∀ ids : List ObjId,
      ids.forM (fun id => (Inquiry.ask (.classes id Run.travelClasses) : Except Fault Unit)) =
        .ok () := by
    intro ids
    induction ids with
    | nil => rfl
    | cons id ids ih => exact ih
  simp only [Inquiry.attrs, hask]
  rfl

namespace Inner

variable {inner : Inner (Except Fault)}

theorem refs_inv {left right : Ref} (h : Succeeds (inner.refs left right d) b b') :
    (left = none ∧ right = none ∧ b' = b) ∨
    ∃ l r, left = some l ∧ right = some r ∧ Succeeds (inner.objects l r d) b b' := by
  cases left with
  | none =>
      cases right with
      | none => exact .inl ⟨rfl, rfl, (check_inv h).2⟩
      | some r => exact nomatch (check_inv h).1
  | some l =>
      cases right with
      | none => exact nomatch (check_inv h).1
      | some r => exact .inr ⟨l, r, rfl, rfl, h⟩

theorem values_inv {left right : Value} (h : Succeeds (inner.values left right d) b b') :
    (left.object? = none ∧ right.object? = none ∧ plainEqual left right = true ∧ b' = b) ∨
    ∃ l r, left.object? = some l ∧ right.object? = some r ∧
      Succeeds (inner.objects l r d) b b' := by
  unfold values at h
  split at h
  · rename_i l r hl hr
    exact .inr ⟨l, r, hl, hr, h⟩
  · rename_i hl hr
    obtain ⟨hplain, rfl⟩ := check_inv h
    exact .inl ⟨hl, hr, hplain, rfl⟩
  · exact nomatch (check_inv h).1

theorem attr_inv {pair : Attr × Attr} (h : Succeeds (inner.attr pair) b b') :
    pair.1.key = pair.2.key ∧
      Succeeds (inner.values pair.1.value pair.2.value pair.1.isDefinition) b b' := by
  unfold attr at h
  split at h
  · rename_i hkey
    exact ⟨hkey, h⟩
  · exact nomatch (check_inv h).1

/-- The attributes of two reflected objects are compared one by one. -/
theorem attrs_eq (inner : Inner (Except Fault)) (hl : w.schemaOf? l ≠ none)
    (hr : w.schemaOf? r ≠ none) :
    inner.attrs w l r =
      if (w.shown l).length = (w.shown r).length then
        all inner.attr ((w.shown l).zip (w.shown r))
      else check false := by
  obtain ⟨schema, hl⟩ := Option.ne_none_iff_exists'.mp hl
  obtain ⟨schema', hr⟩ := Option.ne_none_iff_exists'.mp hr
  funext b
  simp only [attrs, attrs_eq_ok, World.attrs_eq_shown hl, World.attrs_eq_shown hr, Bind.bind,
    Except.bind]
  split_ifs <;> rfl

theorem attrs_inv (h : Succeeds (inner.attrs w l r) b b') :
    ∃ ls rs, w.attrs l = .ok ls ∧ w.attrs r = .ok rs ∧ ls.length = rs.length ∧
      Succeeds (all inner.attr (ls.zip rs)) b b' := by
  obtain ⟨left, hleft, h⟩ := bind_eq_ok.mp h
  obtain ⟨right, hright, h⟩ := bind_eq_ok.mp h
  rw [attrs_eq_ok] at hleft hright
  obtain rfl := Except.ok.inj hleft
  obtain rfl := Except.ok.inj hright
  split at h
  · rename_i ls rs hls hrs
    split at h
    · rename_i hlength
      exact ⟨ls, rs, hls, hrs, hlength, h⟩
    · exact nomatch h
  · exact nomatch h

theorem nodes_inv {kind : NodeKind} (h : Succeeds (inner.nodes w kind l r d) b b') :
    (l = r ∧ kind ≠ .graph ∧ b' = b) ∨
    ∃ b₁, Succeeds (inner.attrs w l r) b b₁ ∧
      ((kind ≠ .tree ∧ b' = (l, r) :: b₁) ∨ (kind = .tree ∧ b' = b₁)) := by
  cases kind with
  | tree =>
      unfold nodes at h
      dsimp only at h
      split at h
      · rename_i heq
        exact .inl ⟨heq, by simp, (check_inv h).2⟩
      · exact .inr ⟨b', h, .inr ⟨rfl, rfl⟩⟩
  | graph =>
      obtain ⟨b₁, hattrs, rfl⟩ := binding_inv h
      exact .inr ⟨b₁, hattrs, .inl ⟨by simp, rfl⟩⟩
  | «variable» =>
      unfold nodes at h
      dsimp only at h
      split at h
      · rename_i heq
        exact .inl ⟨heq, by simp, (check_inv h).2⟩
      · split at h
        · obtain ⟨b₁, hattrs, rfl⟩ := binding_inv h
          exact .inr ⟨b₁, hattrs, .inl ⟨by simp, rfl⟩⟩
        · exact nomatch (check_inv h).1

theorem entry_inv {right : List (Ref × Ref)} {e : Ref × Ref}
    (h : Succeeds (inner.entry w right d e) b b') :
    ∃ k v, right.find? (fun (k, _) => w.sameKey k (keyFor w e.1 b)) = some (k, v) ∧
      Succeeds (inner.refs e.2 v d) b b' := by
  obtain ⟨_, -, h⟩ := bind_eq_ok.mp h
  split at h
  · rename_i k v hfind
    exact ⟨k, v, hfind, h⟩
  · exact nomatch h

/-- An entry of a map is compared with the one that is found for its key. -/
theorem entry_eq {m : Type → Type} [Monad m] [LawfulMonad m] [Inquiry m] (inner : Inner m)
    {right : List (Ref × Ref)} {e : Ref × Ref} (hask : (Inquiry.askKey e.1 : m Unit) = pure ()) :
    inner.entry w right d e b =
      (right.find? fun p => w.sameKey p.1 (keyFor w e.1 b)).elim (pure none)
        fun e' => inner.refs e.2 e'.2 d b := by
  rw [entry, hask, pure_bind]
  cases right.find? fun p => w.sameKey p.1 (keyFor w e.1 b) with
  | none => rfl
  | some found => rfl

theorem askKey_eq (key : Ref) : (Inquiry.askKey key : Except Fault Unit) = pure () := by
  cases key <;> rfl

theorem entry_of_find? {right : List (Ref × Ref)} {e e' : Ref × Ref}
    (hfind : right.find? (fun p => w.sameKey p.1 (keyFor w e.1 b)) = some e') :
    inner.entry w right d e b = inner.refs e.2 e'.2 d b := by
  rw [entry_eq inner (askKey_eq e.1), hfind]
  rfl

/-- Of an entry whose key is not found nothing is compared. -/
theorem entry_of_not_found {right : List (Ref × Ref)} {e : Ref × Ref}
    (hfind : right.find? (fun p => w.sameKey p.1 (keyFor w e.1 b)) = none) :
    inner.entry w right d e b = .ok none := by
  rw [entry_eq inner (askKey_eq e.1), hfind]
  rfl

theorem contents_inv (h : Succeeds (inner.contents w l r d) b b') :
    (∃ s, w.payload? l = some (.text s) ∧ w.payload? r = some (.text s) ∧ b' = b) ∨
    (∃ s, w.payload? l = some (.shape s) ∧ w.payload? r = some (.shape s) ∧ b' = b) ∨
    (∃ ls rs, w.payload? l = some (.array ls) ∧ w.payload? r = some (.array rs) ∧
      ls.length = rs.length ∧
      Succeeds (all (fun (p : Ref × Ref) => inner.refs p.1 p.2 d) (ls.zip rs)) b b') ∨
    (∃ ls rs, w.payload? l = some (.map ls) ∧ w.payload? r = some (.map rs) ∧
      ls.length = rs.length ∧ Succeeds (all (inner.entry w rs d) ls) b b') ∨
    (∃ s t, w.payload? l = some (.tensor s) ∧ w.payload? r = some (.tensor t) ∧
      tensorsEqual w l r = .ok true ∧ b' = b) := by
  unfold contents at h
  split at h
  · rename_i s t hl hr
    obtain ⟨heq, rfl⟩ := check_inv h
    obtain rfl := beq_iff_eq.mp heq
    exact .inl ⟨s, hl, hr, rfl⟩
  · rename_i s t hl hr
    obtain ⟨heq, rfl⟩ := check_inv h
    obtain rfl := beq_iff_eq.mp heq
    exact .inr (.inl ⟨s, hl, hr, rfl⟩)
  · rename_i ls rs hl hr
    split at h
    · rename_i hlength
      exact .inr (.inr (.inl ⟨ls, rs, hl, hr, hlength, h⟩))
    · exact nomatch (check_inv h).1
  · rename_i ls rs hl hr
    split at h
    · rename_i hlength
      exact .inr (.inr (.inr (.inl ⟨ls, rs, hl, hr, hlength, h⟩)))
    · exact nomatch (check_inv h).1
  · rename_i s t hl hr
    obtain ⟨equal, hequal, h⟩ := bind_eq_ok.mp h
    obtain ⟨rfl, rfl⟩ := check_inv h
    exact .inr (.inr (.inr (.inr ⟨s, t, hl, hr, hequal, rfl⟩)))
  · exact nomatch (check_inv h).1

end Inner

/-- Two objects that are found equal are bound to each other already, or have one type and are found
equal in the way of their kind. -/
theorem objectsWithin_inv (h : Succeeds (objectsWithin w mapFree (depth + 1) l r d) b b') :
    (b.counterpart? l = some r ∧ b' = b) ∨
    (b.counterpart? l = none ∧ b.isTaken r = false ∧ w.typeIndex l = w.typeIndex r ∧
      ((∃ schema, w.schemaOf? l = some schema ∧
          Succeeds (Inner.nodes ⟨mapFree, objectsWithin w mapFree depth⟩ w schema.kind l r d) b b') ∨
        (w.schemaOf? l = none ∧ ((l = r ∧ b' = b) ∨
          (l ≠ r ∧
            Succeeds (Inner.contents ⟨mapFree, objectsWithin w mapFree depth⟩ w l r d) b b'))))) := by
  unfold Succeeds at h
  simp only [objectsWithin] at h
  split at h
  · rename_i counterpart hbound
    obtain ⟨heq, rfl⟩ := check_inv h
    obtain rfl := beq_iff_eq.mp heq
    exact .inl ⟨hbound, rfl⟩
  · rename_i hunbound
    split at h
    · exact nomatch h
    · rename_i hfree
      simp only [Bool.or_eq_true, bne_iff_ne, ne_eq, not_or, Bool.not_eq_true, not_not] at hfree
      refine .inr ⟨hunbound, hfree.1, hfree.2, ?_⟩
      -- what is asked on the way has no answer that could fail
      obtain ⟨_, -, h⟩ := bind_eq_ok.mp h
      split at h
      · rename_i schema hschema
        exact .inl ⟨schema, hschema, h⟩
      · rename_i hplain
        refine .inr ⟨hplain, ?_⟩
        split at h
        · rename_i heq
          exact .inl ⟨heq, (Option.some.inj (Except.ok.inj h)).symm⟩
        · rename_i hne
          obtain ⟨_, -, h⟩ := bind_eq_ok.mp h
          exact .inr ⟨hne, h⟩

end Equality

end ObjectRuntime
