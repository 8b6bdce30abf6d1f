import ObjectRuntime.Proofs.Reflection.Isomorphism
set_option autoImplicit false

/-!
# Maps that list their entries in another order

Two entries of a map can be visited in either order if nothing that can be bound is met from one of
them: what is found in the one does not depend on what has been met in the other.  `World.OrderFree`
says so of all entries of a map, and a `Relisting` of a world is one in which such maps list their
entries in some other order.  All that a traversal asks of an object is the same in it.
-/

namespace ObjectRuntime

namespace World

variable {κ : Type} {w w' : World κ} {g : Ref} {a b x id : ObjId}
  {es es' : List (Ref × Ref)}

/-- Nothing that can be bound to a counterpart is met in the graph. -/
def Inert (w : World κ) (g : Ref) : Prop := ∀ x, w.Met g x → w.isBindable x = false

/-- Nothing that can be bound is met from the key or from the value. -/
def InertEntry (w : World κ) (e : Ref × Ref) : Prop := w.Inert e.1 ∧ w.Inert e.2

/-- Of any two entries one is inert, so that at most one entry of the map is not. -/
def OrderFree (w : World κ) (entries : List (Ref × Ref)) : Prop :=
  entries.Pairwise fun e e' => w.InertEntry e ∨ w.InertEntry e'

/-- The same world, except that maps may list their entries in another order. -/
structure Relisting (w w' : World κ) : Prop where
  classes : SameClasses w w'
  size : w'.heap.cells.size = w.heap.cells.size
  typeIndex : ∀ id, w'.typeIndex id = w.typeIndex id
  content : ∀ id, w'.payload? id = w.payload? id ∨
    ∃ entries entries', w.payload? id = some (.map entries) ∧
      w'.payload? id = some (.map entries') ∧ entries.Perm entries' ∧ w.OrderFree entries

/-! ## Below an object -/

/-- What is met below an object is met from above it. -/
theorem Meets.met (hab : w.Meets a b) (hx : w.Met (some b) x) : w.Met (some a) x := by
  obtain ⟨top, htop, hreach⟩ := hx
  cases htop
  exact ⟨a, rfl, .head hab hreach⟩

theorem Inert.root (h : w.Inert (some a)) : w.isBindable a = false := h a (.root a)

theorem Inert.step (h : w.Inert (some a)) (hab : w.Meets a b) : w.Inert (some b) :=
  fun x hx => h x (hab.met hx)

theorem inert_none (w : World κ) : w.Inert none := by
  rintro x ⟨top, htop, -⟩
  cases htop

/-- A string is inert. -/
theorem inert_of_text {s : String} (hschema : w.schemaOf? a = none)
    (hcontent : w.payload? a = some (.text s)) : w.Inert (some a) := by
  intro x hx
  rcases met_cases hx with rfl | ⟨b, hb, -⟩
  · simp [isBindable, hschema]
  · exact absurd hb (not_meets hschema hcontent (by simp) (by simp))

/-- The entries of an inert map are inert. -/
theorem Inert.entry {e : Ref × Ref} (h : w.Inert (some a)) (hschema : w.schemaOf? a = none)
    (hcontent : w.payload? a = some (.map es)) (he : e ∈ es) : w.InertEntry e := by
  have hinert : ∀ r : Ref, (r = e.1 ∨ r = e.2) → w.Inert r := by
    intro r hr
    cases r with
    | none => exact inert_none w
    | some x => exact h.step (meets_of_entry hschema hcontent he (hr.imp Eq.symm Eq.symm))
  exact ⟨hinert _ (.inl rfl), hinert _ (.inr rfl)⟩

theorem Readable.step (h : w.Readable (some a)) (hab : w.Meets a b) : w.Readable (some b) where
  acyclic _ hb := by
    cases hb
    exact (h.acyclic a rfl).step (refers_of_meets hab)
  distinct hx := h.distinct (hab.met hx)
  strings hx := h.strings (hab.met hx)
  tensors hx := h.tensors (hab.met hx)

theorem OrderFree.perm (h : w.OrderFree es) (hperm : es.Perm es') : w.OrderFree es' :=
  (hperm.pairwise_iff fun {_ _} hinert => hinert.symm).mp h

/-! ## What a relisting leaves as it is -/

namespace Relisting

theorem refl (w : World κ) : Relisting w w := ⟨⟨rfl, rfl⟩, rfl, fun _ => rfl, fun _ => .inl rfl⟩

variable (h : Relisting w w')
include h

theorem schemaOf? (id : ObjId) : w'.schemaOf? id = w.schemaOf? id :=
  h.classes.schemaOf? (h.typeIndex id)

/-- What is no map keeps its content. -/
theorem keeps {content : Payload κ} (hcontent : w.payload? id = some content)
    (hmap : ∀ entries, content ≠ .map entries) : w'.payload? id = some content := by
  rcases h.content id with heq | ⟨_, _, hentries, -⟩
  · exact heq.trans hcontent
  · exact absurd (Option.some.inj (hcontent.symm.trans hentries)) (hmap _)

theorem reflects {content : Payload κ} (hcontent : w'.payload? id = some content)
    (hmap : ∀ entries, content ≠ .map entries) : w.payload? id = some content := by
  rcases h.content id with heq | ⟨_, _, -, hentries, -⟩
  · exact heq.symm.trans hcontent
  · exact absurd (Option.some.inj (hcontent.symm.trans hentries)) (hmap _)

/-- A map is one in both worlds. -/
theorem isMap (hcontent : w'.payload? id = some (.map es')) :
    ∃ es, w.payload? id = some (.map es) := by
  rcases h.content id with heq | ⟨es, _, hcontent, -⟩
  · exact ⟨es', heq ▸ hcontent⟩
  · exact ⟨es, hcontent⟩

/-- The entries of a map. -/
theorem entries (hcontent : w.payload? id = some (.map es)) :
    ∃ es', w'.payload? id = some (.map es') ∧ es.Perm es' ∧ (es' = es ∨ w.OrderFree es) := by
  rcases h.content id with heq | ⟨_, es', hes, hcontent', hperm, hfree⟩
  · exact ⟨es, heq.trans hcontent, .refl _, .inl rfl⟩
  · cases hcontent.symm.trans hes
    exact ⟨es', hcontent', hperm, .inr hfree⟩

theorem text? (id : ObjId) : w'.text? id = w.text? id := by
  rcases h.content id with heq | ⟨_, _, hcontent, hcontent', -⟩
  · simp only [World.text?, heq]
  · simp only [World.text?, hcontent, hcontent']

theorem tensor? (id : ObjId) : w'.tensor? id = w.tensor? id := by
  rcases h.content id with heq | ⟨_, _, hcontent, hcontent', -⟩
  · simp only [World.tensor?, heq]
  · simp only [World.tensor?, hcontent, hcontent']

theorem sameKey (k k' : Ref) : w'.sameKey k k' = w.sameKey k k' := by
  simp only [World.sameKey, funext h.text?]

theorem tensorBytes (id : ObjId) (t : Tensor) : w'.tensorBytes id t = w.tensorBytes id t :=
  tensorBytes_congr h.size h.tensor? id t

theorem tensorsEqual (l r : ObjId) : Equality.tensorsEqual w' l r = Equality.tensorsEqual w l r := by
  simp only [Equality.tensorsEqual, h.tensor?, h.tensorBytes]

theorem attrs (id : ObjId) : w'.attrs id = w.attrs id := by
  have hvalues (schema : Schema) : (w'.payload? id).map schema.values =
      (w.payload? id).map schema.values := by
    rcases h.content id with heq | ⟨_, _, hcontent, hcontent', -⟩
    · rw [heq]
    · rw [hcontent, hcontent', Option.map_some, Option.map_some, values_map, values_map]
  have hshow : w'.showField = w.showField := by
    funext v
    cases hv : v.object? with
    | none => simp only [World.showField, hv]
    | some a => simp only [World.showField, hv, showRef_some, h.classes.showTag (h.typeIndex a)]
  simp only [World.attrs, h.schemaOf?, hvalues, hshow, h.classes.typeKey (h.typeIndex id)]

theorem shown (id : ObjId) : w'.shown id = w.shown id := by
  rw [World.shown, World.shown, h.attrs]

end Relisting

end World

end ObjectRuntime
