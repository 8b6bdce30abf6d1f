import ObjectRuntime.Proofs.Reflection.ComparisonOrder
import ObjectRuntime.Proofs.Reflection.HashOrder
set_option autoImplicit false

/-!
# The order of the entries of maps

Maps are meant to be compared and hashed without regard to the order of their entries.  So they are
if nothing that can be bound is met from any but one entry of each map (`structure_of_relisting`).
In general they are not: a variable that is defined in one entry and used in another is bound when it
is used, or not, according to the order in which the entries are visited.
-/

namespace ObjectRuntime

namespace World

/-- Graphs have the same hash and are compared alike in whatever order maps list their entries, if of
any two entries one is inert in every map that lists them in another order. -/
theorem structure_of_relisting {κ : Type} {w w' : World κ} {g h : Ref} (mapFree : Bool)
    (hlist : Relisting w w') (hg : w.Readable g) (hh : w.Readable h) :
    (∃ hash, structuralHash w g mapFree = .ok hash ∧ structuralHash w' g mapFree = .ok hash) ∧
      (∃ equal, structuralEqual w g h mapFree = .ok equal ∧
        structuralEqual w' g h mapFree = .ok equal) ∧
      ∃ equal, structuralEqual w h g mapFree = .ok equal ∧
        structuralEqual w' h g mapFree = .ok equal :=
  ⟨structuralHash_of_relisting hlist hg, structuralEqual_of_relisting hlist hg hh,
    structuralEqual_of_relisting hlist hh hg⟩

end World

/-! ## Two maps of functions -/

/-- The functions `f(x) = []` and `g(y) = []`, the objects 7 and 8, and two maps, the objects 9 and
10. -/
def functionMaps (es es' : List (Ref × Ref)) : World Unit := functionsOver
  [⟨3, 4, .text "d"⟩, ⟨3, 4, .text "u"⟩, ⟨4, 1, .array [some ⟨0⟩]⟩, ⟨4, 1, .array [some ⟨1⟩]⟩,
    ⟨4, 2, .array []⟩, ⟨9, 1, .node [.object .object ⟨4⟩, .object .object ⟨6⟩]⟩,
    ⟨9, 1, .node [.object .object ⟨5⟩, .object .object ⟨6⟩]⟩, ⟨5, 1, .map es⟩, ⟨5, 1, .map es'⟩]

/-- The entries of a map `{"d": d, "u": u}`. -/
def twoEntries (d u : ObjId) : List (Ref × Ref) := [(some ⟨2⟩, some d), (some ⟨3⟩, some u)]

/-- The maps `{"d": f, "u": "d"}` and `{"d": g, "u": "d"}`. -/
def namedFunctions : World Unit := functionMaps (twoEntries ⟨7⟩ ⟨2⟩) (twoEntries ⟨8⟩ ⟨2⟩)

/-- The same, but the first map lists its entries in the other order. -/
def namedFunctionsReversed : World Unit :=
  functionMaps (twoEntries ⟨7⟩ ⟨2⟩).reverse (twoEntries ⟨8⟩ ⟨2⟩)

/-- The maps `{"d": f, "u": x}` and `{"d": g, "u": y}`: what one entry uses is defined in the other. -/
def definedBeforeUse : World Unit := functionMaps (twoEntries ⟨7⟩ ⟨0⟩) (twoEntries ⟨8⟩ ⟨1⟩)

/-- The same, but the first map lists its entries in the other order. -/
def usedBeforeDefinition : World Unit :=
  functionMaps (twoEntries ⟨7⟩ ⟨0⟩).reverse (twoEntries ⟨8⟩ ⟨1⟩)

theorem twoEntries_perm (d u : ObjId) : (twoEntries d u).Perm (twoEntries d u).reverse :=
  (List.reverse_perm _).symm

namespace functionMaps

open World

variable {es es₁ es₂ es' entries : List (Ref × Ref)} {g : Ref} {id : ObjId}

theorem payload?_of_large (h : ¬ id.index < 11) : (functionMaps es es').payload? id = none := by
  simp [payload?, Heap.get?, functionMaps, functionsOver, Nat.le_of_not_lt h]

theorem typeIndex_of_large (h : ¬ id.index < 11) :
    (functionMaps es es').typeIndex id = TypeTable.rootIndex := by
  simp [typeIndex, Heap.get?, functionMaps, functionsOver, Nat.le_of_not_lt h]

/-- The first map may list its entries in another order. -/
theorem relisting (hperm : es₁.Perm es₂) (hfree : (functionMaps es₁ es').OrderFree es₁) :
    (functionMaps es₁ es').Relisting (functionMaps es₂ es') where
  classes := ⟨rfl, rfl⟩
  size := rfl
  typeIndex id := by
    by_cases h : id.index < 11
    · obtain ⟨i⟩ := id
      interval_cases i <;> rfl
    · rw [typeIndex_of_large h, typeIndex_of_large h]
  content id := by
    by_cases h : id.index < 11
    · obtain ⟨i⟩ := id
      interval_cases i
      all_goals first | exact .inl rfl | exact .inr ⟨es₁, es₂, rfl, rfl, hperm, hfree⟩
    · exact .inl (by rw [payload?_of_large h, payload?_of_large h])

theorem map_cases (h : (functionMaps es es').payload? id = some (.map entries)) :
    entries = es ∨ entries = es' := by
  by_cases hid : id.index < 11
  · obtain ⟨i⟩ := id
    interval_cases i <;> cases h
    · exact .inl rfl
    · exact .inr rfl
  · rw [payload?_of_large hid] at h
    cases h

theorem readable (hordered : (functionMaps es es').isOrdered = true)
    (hdistinct : ∀ entries, entries = es ∨ entries = es' →
      entries.Pairwise fun e e' => (functionMaps es es').sameKey e.1 e'.1 = false) :
    (functionMaps es es').Readable g where
  acyclic a _ := acyclicAt_of_isOrdered hordered a
  distinct _ hcontent := hdistinct _ (map_cases hcontent)
  strings {a s} _ hcontent := by
    by_cases h : a.index < 11
    · obtain ⟨i⟩ := a
      interval_cases i <;> cases hcontent
      all_goals rfl
    · rw [payload?_of_large h] at hcontent
      cases hcontent
  tensors {a t} _ ht := by
    have hcontent := payload?_of_tensor? ht
    by_cases h : a.index < 11
    · obtain ⟨i⟩ := a
      interval_cases i <;> cases hcontent
    · rw [payload?_of_large h] at hcontent
      cases hcontent

/-- Beside a string, the other entry may hold anything. -/
theorem orderFree_twoEntries (d : ObjId) :
    (functionMaps es es').OrderFree (twoEntries d ⟨2⟩) :=
  List.pairwise_pair.mpr (.inr ⟨inert_of_text (s := "u") rfl rfl, inert_of_text (s := "d") rfl rfl⟩)

end functionMaps

theorem namedFunctions_readable (g : Ref) : namedFunctions.Readable g :=
  functionMaps.readable rfl (by rintro entries (rfl | rfl) <;> exact List.pairwise_pair.mpr rfl)

theorem namedFunctions_relisting : namedFunctions.Relisting namedFunctionsReversed :=
  functionMaps.relisting (twoEntries_perm ⟨7⟩ ⟨2⟩) (functionMaps.orderFree_twoEntries ⟨7⟩)

/-- The map `{"d": f, "u": "d"}` has the same hash in both orders, and is equal to
`{"d": g, "u": "d"}` in both. -/
theorem namedFunctions_structure :
    (∃ hash, structuralHash namedFunctions (some ⟨9⟩) false = .ok hash ∧
      structuralHash namedFunctionsReversed (some ⟨9⟩) false = .ok hash) ∧
    structuralEqual namedFunctionsReversed (some ⟨9⟩) (some ⟨10⟩) false = .ok true ∧
    structuralEqual namedFunctionsReversed (some ⟨10⟩) (some ⟨9⟩) false = .ok true := by
  obtain ⟨hhash, ⟨equal, hequal, hrelisted⟩, equal', hequal', hrelisted'⟩ :=
    World.structure_of_relisting false namedFunctions_relisting (namedFunctions_readable (some ⟨9⟩))
      (namedFunctions_readable (some ⟨10⟩))
  refine ⟨hhash, hrelisted.trans (hequal.symm.trans ?_), hrelisted'.trans (hequal'.symm.trans ?_)⟩
  all_goals rfl

/-- The map `{"d": f, "u": x}`, in which `f` defines `x`, has another hash with its entries in the
other order, and is no longer equal to `{"d": g, "u": y}`. -/
theorem definedBeforeUse_order_seen :
    (twoEntries ⟨7⟩ ⟨0⟩).Perm (twoEntries ⟨7⟩ ⟨0⟩).reverse ∧
      (∀ g, definedBeforeUse.Acyclic g ∧ usedBeforeDefinition.Acyclic g) ∧
      structuralHash definedBeforeUse (some ⟨9⟩) false ≠
        structuralHash usedBeforeDefinition (some ⟨9⟩) false ∧
      structuralEqual definedBeforeUse (some ⟨9⟩) (some ⟨10⟩) false = .ok true ∧
      structuralEqual usedBeforeDefinition (some ⟨9⟩) (some ⟨10⟩) false = .ok false := by
  refine ⟨twoEntries_perm ⟨7⟩ ⟨0⟩, fun g => ⟨fun a _ => World.acyclicAt_of_isOrdered rfl a,
    fun a _ => World.acyclicAt_of_isOrdered rfl a⟩, fun heq => ?_, rfl, rfl⟩
  have hdiffer : (structuralHash definedBeforeUse (some ⟨9⟩) false).toOption ≠
      (structuralHash usedBeforeDefinition (some ⟨9⟩) false).toOption := by decide +kernel
  exact hdiffer (congrArg Except.toOption heq)

end ObjectRuntime
