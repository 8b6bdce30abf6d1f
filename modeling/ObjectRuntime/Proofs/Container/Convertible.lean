import ObjectRuntime.Proofs.Container.Answers
set_option autoImplicit false

/-!
# Values that can be converted

Which values a conversion to a static type takes is a question about what is settled
(`World.Convertible`): objects of the class, numbers and texts for which there is a box or a string
of the class, and containers whose parts can be converted in their turn.  What passes a check can be
converted, but not the other way round.
-/

namespace ObjectRuntime

open ObjectClass (Vocabulary)
open Run (Borrowed)
open World (Ready Reaches Resembles)

variable {κ : Type} {P : κ → Prop} {w u : World κ} {cs : List ObjectClass}
  {others held : List ObjId} {a : ObjId} {c : ObjectClass} {r : Ref} {v : Value}
  {t elem key value : RefType} {parts : List (RefType × Ref)}

/-! ## Final classes -/

/-- A built-in class below the root that has no subclasses. -/
structure ObjectClass.IsLeaf (c : ObjectClass) : Prop where
  builtin : c ∈ ObjectClass.builtins
  base : c.base = .root
  isFinal : c.isFinal = true
  key_ne : c.key ≠ ObjectClass.rootKey

theorem ObjectClass.IsLeaf.ne_root (h : c.IsLeaf) : c ≠ .root :=
  fun hsame => h.key_ne (congrArg ObjectClass.key hsame)

/-- Only its own type belongs to such a class. -/
theorem TypeTable.Regular.isMember_leaf {t : TypeTable} {i : Nat} (h : Regular t)
    (hleaf : c.IsLeaf) : t.isMember i c = true ↔ t.index? c.key = some i := by
  unfold isMember
  cases hfirst : t.index? c.key with
  | none => simp
  | some first =>
      have hne : first ≠ rootIndex := by
        rintro rfl
        obtain ⟨e, he, hkey⟩ := h.keyed _ _ hfirst
        obtain ⟨e', he', hkey'⟩ := h.keyed _ _ h.rooted
        obtain rfl := Option.some.inj (he.symm.trans he')
        exact hleaf.key_ne (hkey.symm.trans hkey')
      change t.isInstance i first c = true ↔ some first = some i
      rw [isInstance, if_neg hne, if_pos hleaf.isFinal, beq_iff_eq, Option.some.injEq]
      exact eq_comm

/-- The classes of the objects that are made of plain values. -/
theorem World.boxings_cls (v : Value) :
    ∀ p ∈ (World.boxings v : List (ObjectClass × Payload κ)),
      p.1 ∈ [ObjectClass.boxInt, .boxFloat, .boxBool, .string] := by
  cases v with
  | null | bytes | dataType | device | handle | tensorHandle | object =>
      exact fun _ hp => absurd hp List.not_mem_nil
  | int | float | bool | text => simp [World.boxings]

theorem ObjectClass.isLeaf_of_boxing
    (hc : c ∈ [ObjectClass.boxInt, .boxFloat, .boxBool, .string]) : c.IsLeaf := by
  simp only [List.mem_cons, List.not_mem_nil, or_false] at hc
  rcases hc with rfl | rfl | rfl | rfl
  all_goals exact ⟨by decide, rfl, rfl, by decide⟩

/-- The types of arrays and of maps. -/
def RefType.IsContainer : RefType → Prop
  | .named _ _ => False
  | .array _ => True
  | .map _ _ => True

theorem RefType.IsContainer.isLeaf (ht : t.IsContainer) : t.cls.IsLeaf := by
  have hleaf : ObjectClass.array.IsLeaf ∧ ObjectClass.map.IsLeaf :=
    ⟨⟨by decide, rfl, rfl, by decide⟩, ⟨by decide, rfl, rfl, by decide⟩⟩
  cases t with
  | named name cls => exact ht.elim
  | array elem => exact hleaf.1
  | map key value => exact hleaf.2

/-- No container is made of a plain value. -/
theorem RefType.IsContainer.key_ne (ht : t.IsContainer)
    (hc : c ∈ [ObjectClass.boxInt, .boxFloat, .boxBool, .string]) : t.cls.key ≠ c.key := by
  have hne : ∀ c ∈ [ObjectClass.boxInt, .boxFloat, .boxBool, .string],
      ObjectClass.array.key ≠ c.key ∧ ObjectClass.map.key ≠ c.key := by decide
  cases t with
  | named name cls => exact ht.elim
  | array elem => exact (hne c hc).1
  | map key value => exact (hne c hc).2

namespace World

/-! ## The parts of containers -/

/-- The parts of a container, each with the type that it should have: the elements of an array, or
the keys and values of a map, entry by entry. -/
inductive Parts (w : World κ) : RefType → ObjId → List (RefType × Ref) → Prop where
  | array {elem : RefType} {a : ObjId} {elems : List Ref}
      (content : w.payload? a = some (.array elems)) :
      Parts w (.array elem) a (elems.map fun e => (elem, e))
  | map {key value : RefType} {a : ObjId} {entries : List (Ref × Ref)}
      (content : w.payload? a = some (.map entries)) :
      Parts w (.map key value) a (entries.flatMap fun e => [(key, e.1), (value, e.2)])

theorem parts_array_iff :
    w.Parts (.array elem) a parts ↔
      ∃ elems, w.payload? a = some (.array elems) ∧ parts = elems.map fun e => (elem, e) := by
  constructor
  · rintro ⟨content⟩
    exact ⟨_, content, rfl⟩
  · rintro ⟨elems, content, rfl⟩
    exact .array content

theorem parts_map_iff :
    w.Parts (.map key value) a parts ↔ ∃ entries, w.payload? a = some (.map entries) ∧
      parts = entries.flatMap fun e => [(key, e.1), (value, e.2)] := by
  constructor
  · rintro (_ | content)
    exact ⟨_, content, rfl⟩
  · rintro ⟨entries, content, rfl⟩
    exact .map content

theorem forall_mem_entryParts {Q : RefType × Ref → Prop} {entries : List (Ref × Ref)} :
    (∀ p ∈ entries.flatMap fun e => [(key, e.1), (value, e.2)], Q p) ↔
      ∀ e ∈ entries, Q (key, e.1) ∧ Q (value, e.2) := by
  simp only [List.forall_mem_flatMap, List.forall_mem_cons, List.not_mem_nil, false_imp_iff,
    implies_true, and_true]

/-- A container is told from other objects by its type. -/
theorem InOrder.index?_iff (h : w.InOrder a) (ht : t.IsContainer) :
    w.types.index? t.cls.key = some (w.typeIndex a) ↔ ∃ parts, w.Parts t a parts := by
  cases t with
  | named name cls => exact ht.elim
  | array elem =>
      simp only [parts_array_iff]
      rw [RefType.cls, h.array]
      constructor
      · rintro ⟨elems, hcontent⟩
        exact ⟨_, elems, hcontent, rfl⟩
      · rintro ⟨_, elems, hcontent, -⟩
        exact ⟨elems, hcontent⟩
  | map key value =>
      simp only [parts_map_iff]
      rw [RefType.cls, h.map]
      constructor
      · rintro ⟨entries, hcontent⟩
        exact ⟨_, entries, hcontent, rfl⟩
      · rintro ⟨_, entries, hcontent, -⟩
        exact ⟨entries, hcontent⟩

/-- A container passes a check if all of its parts do. -/
theorem Parts.passes_iff (h : w.Parts t a parts) :
    w.mismatch? t (some a) = none ↔ ∀ p ∈ parts, w.mismatch? p.1 p.2 = none := by
  cases h with
  | array content =>
      rw [mismatch?_array content, Option.map_eq_none_iff, firstMismatch_eq_none,
        List.forall_mem_map]
  | map content => rw [mismatch?_map_eq_none content, forall_mem_entryParts]

/-- The parts are of the types of which the container's type is made. -/
theorem Parts.within {S : ObjectClass → Prop} (h : w.Parts t a parts) (ht : t.Within S) :
    ∀ p ∈ parts, p.1.Within S := by
  cases h with
  | array content => exact List.forall_mem_map.mpr fun _ _ => ht
  | map content => exact forall_mem_entryParts.mpr fun _ _ => ht

/-- Whoever can reach a container can reach its parts. -/
theorem Parts.reaches (h : w.Parts t a parts) (ha : w.heap.Reachable others a) :
    ∀ p ∈ parts, w.Reaches others p.2 := by
  cases h with
  | array content => exact List.forall_mem_map.mpr fun _ he => .element ha content he
  | map content => exact forall_mem_entryParts.mpr fun _ he => Reaches.entry ha content he

theorem Parts.congr (h : w.Parts t a parts) (hpayload : u.payload? a = w.payload? a) :
    u.Parts t a parts := by
  cases h with
  | array content => exact .array (hpayload.trans content)
  | map content => exact .map (hpayload.trans content)

/-- A container has one list of parts. -/
theorem Parts.unique {parts' : List (RefType × Ref)} (h : w.Parts t a parts)
    (h' : w.Parts t a parts') : parts' = parts := by
  cases h with
  | array content =>
      obtain ⟨elems, content', rfl⟩ := parts_array_iff.mp h'
      cases content.symm.trans content'
      rfl
  | map content =>
      obtain ⟨entries, content', rfl⟩ := parts_map_iff.mp h'
      cases content.symm.trans content'
      rfl

theorem Parts.isContainer (h : w.Parts t a parts) : t.IsContainer := by
  cases h <;> trivial

/-! ## Convertible values -/

/-- The value can be converted to a reference of the static type. -/
def Convertible (w : World κ) : RefType → Value → Prop
  | .named _ cls, v => v = .null ∨ (∃ a, v.object? = some a ∧ w.isInstance a cls = true) ∨
      ∃ p ∈ (boxings v : List (ObjectClass × Payload κ)), cls = .root ∨ cls = p.1
  | .array elem, v => v = .null ∨ ∃ a elems, v.object? = some a ∧
      w.payload? a = some (.array elems) ∧ ∀ e ∈ elems, w.Convertible elem (w.classifyRef e false)
  | .map key value, v => v = .null ∨ ∃ a entries, v.object? = some a ∧
      w.payload? a = some (.map entries) ∧ ∀ e ∈ entries,
        w.Convertible key (w.classifyRef e.1 false) ∧ w.Convertible value (w.classifyRef e.2 false)

/-- The part can be converted as it travels. -/
def PartConvertible (w : World κ) (p : RefType × Ref) : Prop :=
  w.Convertible p.1 (w.classifyRef p.2 false)

/-- To a container type nothing can be converted but containers all of whose parts can. -/
theorem convertible_container (ht : t.IsContainer) :
    w.Convertible t v ↔ v = .null ∨ ∃ a parts, v.object? = some a ∧ w.Parts t a parts ∧
      ∀ p ∈ parts, w.PartConvertible p := by
  cases t with
  | named name cls => exact ht.elim
  | array elem =>
      refine or_congr_right ⟨?_, ?_⟩
      · rintro ⟨a, elems, hv, content, helems⟩
        exact ⟨a, _, hv, .array content, List.forall_mem_map.mpr helems⟩
      · rintro ⟨a, _, hv, ⟨content⟩, helems⟩
        exact ⟨a, _, hv, content, fun e he => helems (elem, e) (List.mem_map_of_mem he)⟩
  | map key value =>
      refine or_congr_right ⟨?_, ?_⟩
      · rintro ⟨a, entries, hv, content, hentries⟩
        exact ⟨a, _, hv, .map content, forall_mem_entryParts.mpr hentries⟩
      · rintro ⟨a, _, hv, _ | content, hentries⟩
        exact ⟨a, _, hv, content, forall_mem_entryParts.mp hentries⟩

/-- A container can be converted if all of its parts can. -/
theorem Parts.convertible_iff (h : w.Parts t a parts) (hv : v.object? = some a) :
    w.Convertible t v ↔ ∀ p ∈ parts, w.PartConvertible p := by
  rw [convertible_container h.isContainer]
  constructor
  · rintro (rfl | ⟨b, parts', hb, hparts, hall⟩)
    · cases hv
    · cases hv.symm.trans hb
      rwa [h.unique hparts] at hall
  · exact fun hall => .inr ⟨a, parts, hv, h, hall⟩

/-- A reference carried by a value is reached by whoever reaches the reference. -/
theorem Reaches.borrowed (h : w.Reaches others r) : Borrowed w others (u.classifyRef r false) :=
  fun a ha => h a (Run.object?_classifyRef ha)

/-- Worlds that look alike convert the same values. -/
theorem Resembles.convertible_iff (h : Resembles cs others w u) (hcs : Vocabulary cs)
    (ht : t.Within (· ∈ cs)) (hv : Borrowed w others v) :
    u.Convertible t v ↔ w.Convertible t v := by
  induction t generalizing v with
  | named name cls =>
      refine or_congr_right (or_congr_left (exists_congr fun a => and_congr_right fun ha => ?_))
      rw [h.member a (hv a ha) cls ht]
  | array elem ih =>
      refine or_congr_right (exists_congr fun a => exists_congr fun elems =>
        and_congr_right fun ha => ?_)
      rw [h.payload a (hv a ha)]
      refine and_congr_right fun content => forall₂_congr fun e he => ?_
      have hreach := Reaches.element (hv a ha) content he
      rw [h.classifyRef hcs hreach, ih ht hreach.borrowed]
  | map key value ihKey ihValue =>
      refine or_congr_right (exists_congr fun a => exists_congr fun entries =>
        and_congr_right fun ha => ?_)
      rw [h.payload a (hv a ha)]
      refine and_congr_right fun content => forall₂_congr fun e he => ?_
      obtain ⟨hk, hv⟩ := Reaches.entry (hv a ha) content he
      rw [h.classifyRef hcs hk, h.classifyRef hcs hv, ihKey ht.1 hk.borrowed,
        ihValue ht.2 hv.borrowed]

/-- They convert the same parts. -/
theorem Resembles.partConvertible_iff {p : RefType × Ref} (h : Resembles cs others w u)
    (hcs : Vocabulary cs) (ht : p.1.Within (· ∈ cs)) (hr : w.Reaches others p.2) :
    u.PartConvertible p ↔ w.PartConvertible p := by
  unfold PartConvertible
  rw [h.classifyRef hcs hr, h.convertible_iff hcs ht hr.borrowed]

/-! ## What passes can be converted -/

/-- Boxes travel as numbers for which boxes of the class are made. -/
theorem boxing_of_boxed? (hboxed : w.boxed? a = some v) :
    ∃ p ∈ (boxings v : List (ObjectClass × Payload κ)), w.isInstance a p.1 = true := by
  obtain ⟨content, -, hboxed⟩ := Option.bind_eq_some_iff.mp hboxed
  split_ifs at hboxed with hbool hint hfloat
  · obtain ⟨b, -, rfl⟩ := Option.map_eq_some_iff.mp hboxed
    exact ⟨(.boxBool, .boxBool b), by simp [boxings], hbool⟩
  · obtain ⟨n, -, rfl⟩ := Option.map_eq_some_iff.mp hboxed
    exact ⟨(.boxInt, .boxInt n), by simp [boxings], hint⟩
  · obtain ⟨x, -, rfl⟩ := Option.map_eq_some_iff.mp hboxed
    exact ⟨(.boxFloat, .boxFloat x), by simp [boxings], hfloat⟩

/-- A container travels as an object. -/
theorem Parts.object?_classify (h : w.Parts t a parts) (moved : Bool) :
    (w.classify a moved).object? = some a := by
  rcases classify_cases w a moved with ⟨tag, htag⟩ | ⟨x, hboxed, -⟩
  · rw [htag]
    rfl
  · obtain ⟨content, hcontent, hboxed⟩ := Option.bind_eq_some_iff.mp hboxed
    cases h with
    | array content' =>
        cases hcontent.symm.trans content'
        split_ifs at hboxed <;> cases hboxed
    | map content' =>
        cases hcontent.symm.trans content'
        split_ifs at hboxed <;> cases hboxed

/-- What passes a check can be converted as it travels. -/
theorem Ready.convertible_of_passes (h : Ready P cs others held w) (hcs : Vocabulary cs)
    (ht : t.Within (· ∈ cs)) (hr : w.Reaches others r) (hcheck : w.recalled.mismatch? t r = none) :
    w.recalled.Convertible t (w.recalled.classifyRef r false) := by
  induction t generalizing r with
  | named name cls =>
      cases r with
      | none => exact .inl rfl
      | some a =>
          have hmember := isInstance_of_named hcheck
          refine .inr ?_
          rcases classify_cases w.recalled a false with ⟨tag, htag⟩ | ⟨x, hboxed, hx⟩
          · rw [classifyRef, htag]
            exact .inl ⟨a, rfl, hmember⟩
          · rw [classifyRef, hx]
            obtain ⟨p, hp, hbox⟩ := boxing_of_boxed? hboxed
            have hleaf := ObjectClass.isLeaf_of_boxing (boxings_cls x p hp)
            rw [isInstance_recalled h.regular] at hmember hbox
            exact .inr ⟨p, hp, h.equipped.eq_of_isMember hcs (hcs.builtins _ hleaf.builtin)
              hleaf.ne_root hleaf.base ht ((h.regular.isMember_leaf hleaf).mp hbox) hmember⟩
  | array elem ih =>
      cases r with
      | none => exact .inl rfl
      | some a =>
          obtain ⟨elems, hcontent⟩ := array_of_checked hcheck
          have hparts : w.recalled.Parts (.array elem) a _ := .array hcontent
          refine .inr ⟨a, elems, hparts.object?_classify false, hcontent, fun e he => ?_⟩
          have helems := elements_checked hcheck
          rw [Arr.elements_of_payload hcontent] at helems
          exact ih ht (.element (hr a rfl) hcontent he) (helems e he)
  | map key value ihKey ihValue =>
      cases r with
      | none => exact .inl rfl
      | some a =>
          obtain ⟨entries, hcontent⟩ := map_of_checked hcheck
          have hparts : w.recalled.Parts (.map key value) a _ := .map hcontent
          refine .inr ⟨a, entries, hparts.object?_classify false, hcontent, fun e he => ?_⟩
          have hentries := entries_checked hcheck
          rw [Dict.entries_of_payload hcontent] at hentries
          obtain ⟨hk, hv⟩ := Reaches.entry (hr a rfl) hcontent he
          exact ⟨ihKey ht.1 hk (hentries e he).1, ihValue ht.2 hv (hentries e he).2⟩

end World

end ObjectRuntime
