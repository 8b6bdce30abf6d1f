import ObjectRuntime.Proofs.Lists
import ObjectRuntime.Proofs.Reflection.Comparison
import Mathlib.Data.List.Forall2
set_option autoImplicit false

/-!
# What a successful comparison has established

After a comparison that finds no difference, every access path of the left graph leads in the right
one to an object of the same type, and to the same variable or to one that is bound to it
(`Similar`).  What is bound corresponds one to one, and is similar in turn (`Consistent`).  Both are
kept by every step of a comparison; only objects below the two that are compared get bound on the
way (`Grows`), so in graphs without cycles nothing is bound twice.
-/

namespace ObjectRuntime

open Relation (ReflTransGen TransGen)

namespace Equality

variable {κ : Type} {w : World κ} {b b' b₁ b₂ : Binding} {l r x y : ObjId} {d e mapFree : Bool}
  {inner : Inner (Except Fault)} {L L' R R' : ObjId → Prop}

/-- Every access path from `l` leads from `r` to an object of the same type, and to the same
variable or one that is bound to it. -/
def Similar (w : World κ) (b : Binding) (l r : ObjId) : Prop :=
  ∀ d path x e, w.walk ⟨l, d⟩ path = some ⟨x, e⟩ →
    ∃ y, w.walk ⟨r, d⟩ path = some ⟨y, e⟩ ∧ w.typeIndex x = w.typeIndex y ∧
      (w.IsVariable x → x = y ∨ (x, y) ∈ b)

/-- Both references refer to nothing, or to similar objects. -/
def SimilarRefs (w : World κ) (b : Binding) : Ref → Ref → Prop
  | some l, some r => Similar w b l r
  | none, none => True
  | _, _ => False

/-- Every step that leads to an object from `l` leads to a similar one from `r`. -/
def SimilarSlots (w : World κ) (b : Binding) (l r : ObjId) : Prop :=
  ∀ d s c e, (w.slots l d).lookup s = some (some c, e) →
    ∃ c', (w.slots r d).lookup s = some (some c', e) ∧ Similar w b c c'

/-- What is bound corresponds one to one, and is similar. -/
structure Consistent (w : World κ) (b : Binding) : Prop where
  oneToOne : ∀ {x y x' y'}, (x, y) ∈ b → (x', y') ∈ b → (x = x' ↔ y = y')
  similar : ∀ {x y}, (x, y) ∈ b → Similar w b x y

/-- More is bound in `b'` than in `b`, but only objects of two sets. -/
structure Grows (L R : ObjId → Prop) (b b' : Binding) : Prop where
  kept : ∀ {p}, p ∈ b → p ∈ b'
  new : ∀ {p}, p ∈ b' → p ∈ b ∨ (L p.1 ∧ R p.2)

namespace Grows

theorem refl (L R : ObjId → Prop) (b : Binding) : Grows L R b b := ⟨id, .inl⟩

theorem trans (h₁ : Grows L R b b₁) (h₂ : Grows L R b₁ b₂) : Grows L R b b₂ :=
  ⟨fun hp => h₂.kept (h₁.kept hp), fun hp => (h₂.new hp).elim h₁.new .inr⟩

theorem mono (h : Grows L R b b') (hL : ∀ x, L x → L' x) (hR : ∀ y, R y → R' y) :
    Grows L' R' b b' :=
  ⟨h.kept, fun hp => (h.new hp).imp_right fun hnew => ⟨hL _ hnew.1, hR _ hnew.2⟩⟩

theorem cons (h : Grows L R b b') (hl : L l) (hr : R r) : Grows L R b ((l, r) :: b') := by
  refine ⟨fun hp => List.mem_cons_of_mem _ (h.kept hp), fun hp => ?_⟩
  rcases List.mem_cons.mp hp with rfl | hp
  · exact .inr ⟨hl, hr⟩
  · exact h.new hp

end Grows

namespace Similar

theorem refl (w : World κ) (b : Binding) (l : ObjId) : Similar w b l l :=
  fun _ _ x _ h => ⟨x, h, rfl, fun _ => .inl rfl⟩

theorem mono (h : Similar w b l r) (hb : ∀ {p}, p ∈ b → p ∈ b') : Similar w b' l r := by
  intro d path x e hx
  obtain ⟨y, hy, htype, hbound⟩ := h d path x e hx
  exact ⟨y, hy, htype, fun hvar => (hbound hvar).imp_right hb⟩

/-- Objects are similar if they look alike themselves and hold similar objects. -/
theorem of_slots (htype : w.typeIndex l = w.typeIndex r)
    (hbound : w.IsVariable l → l = r ∨ (l, r) ∈ b) (hslots : SimilarSlots w b l r) :
    Similar w b l r := by
  intro d path x e hx
  cases path with
  | nil =>
      cases hx
      exact ⟨r, rfl, htype, hbound⟩
  | cons s path =>
      simp only [World.walk] at hx ⊢
      split at hx
      · rename_i c e' hslot
        obtain ⟨c', hslot', hsimilar⟩ := hslots d s c e' hslot
        rw [hslot']
        exact hsimilar e' path x e hx
      · cases hx

end Similar

theorem SimilarSlots.mono (h : SimilarSlots w b l r) (hb : ∀ {p}, p ∈ b → p ∈ b') :
    SimilarSlots w b' l r := by
  intro d s c e hc
  obtain ⟨c', hc', hsimilar⟩ := h d s c e hc
  exact ⟨c', hc', hsimilar.mono hb⟩

namespace SimilarRefs

theorem mono {left right : Ref} (h : SimilarRefs w b left right)
    (hb : ∀ {p}, p ∈ b → p ∈ b') : SimilarRefs w b' left right := by
  cases left <;> cases right <;> first | exact Similar.mono h hb | exact h

theorem some_left {right : Ref} (h : SimilarRefs w b (some l) right) :
    ∃ r, right = some r ∧ Similar w b l r := by
  cases right with
  | none => exact h.elim
  | some r => exact ⟨r, rfl, h⟩

end SimilarRefs

/-! ## Slots that are compared in order -/

/-- Slots of the same steps that hold similar references, one by one. -/
def SimilarSlot (w : World κ) (b : Binding) (p q : Step × Ref × Bool) : Prop :=
  p.1 = q.1 ∧ SimilarRefs w b p.2.1 q.2.1 ∧ p.2.2 = q.2.2

theorem lookup_of_similarSlot {ps qs : List (Step × Ref × Bool)} {s : Step} {c : ObjId}
    (h : List.Forall₂ (SimilarSlot w b) ps qs) (hc : ps.lookup s = some (some c, e)) :
    ∃ c', qs.lookup s = some (some c', e) ∧ Similar w b c c' := by
  induction h with
  | nil => cases hc
  | @cons p q ps qs hpq _ ih =>
      obtain ⟨p, left, e₁⟩ := p
      obtain ⟨q, right, e₂⟩ := q
      obtain ⟨hstep, hrefs, hdef⟩ := hpq
      dsimp only at hstep hrefs hdef
      subst hstep hdef
      rw [List.lookup_cons] at hc ⊢
      split at hc
      · rename_i hs
        cases hc
        obtain ⟨c', rfl, hsimilar⟩ := hrefs.some_left
        exact ⟨c', rfl, hsimilar⟩
      · rename_i hs
        exact ih hc

/-- Objects of one type have the same fields, so their attributes at one position differ in their
values only. -/
theorem similarSlots_of_attrs {schema : Schema} (hl : w.schemaOf? l = some schema)
    (hr : w.schemaOf? r = some schema) (hlength : (w.shown l).length = (w.shown r).length)
    (hattrs : ∀ p ∈ (w.shown l).zip (w.shown r),
      SimilarRefs w b p.1.value.object? p.2.value.object?) : SimilarSlots w b l r := by
  intro d s c e hc
  simp only [World.slots, hl, hr] at hc ⊢
  refine lookup_of_similarSlot ?_ hc
  rw [List.forall₂_map_left_iff, List.forall₂_map_right_iff, List.forall₂_iff_get]
  refine ⟨hlength, fun i hi hi' => ?_⟩
  obtain ⟨hkey, hdef⟩ := World.shown_field hl hr hi hi'
  exact ⟨congrArg Step.attr hkey, hattrs _ (getElem_mem_zip hi hi'), hdef⟩

/-- Arrays hold their elements in order. -/
theorem similarSlots_of_elements {ls rs : List Ref} (hl : w.schemaOf? l = none)
    (hr : w.schemaOf? r = none) (hls : w.payload? l = some (.array ls))
    (hrs : w.payload? r = some (.array rs)) (hlength : ls.length = rs.length)
    (helems : ∀ p ∈ ls.zip rs, SimilarRefs w b p.1 p.2) : SimilarSlots w b l r := by
  intro d s c e hc
  simp only [World.slots, hl, hr, hls, hrs] at hc ⊢
  refine lookup_of_similarSlot ?_ hc
  rw [List.forall₂_iff_get]
  refine ⟨by simp [hlength], fun i hi hi' => ?_⟩
  simp only [List.length_mapIdx] at hi hi'
  simp only [List.get_eq_getElem, List.getElem_mapIdx]
  exact ⟨rfl, helems _ (getElem_mem_zip hi hi'), rfl⟩

/-- A step by a text leads to the first entry with a key of this text. -/
theorem lookup_entries (w : World κ) (entries : List (Ref × Ref)) (s : String) (d : Bool) :
    (entries.filterMap fun e => (w.keyText? e.1).map fun s => (Step.key s, e.2, d)).lookup
        (.key s) =
      (entries.find? fun e => w.keyText? e.1 == some s).map fun e => (e.2, d) := by
  induction entries with
  | nil => rfl
  | cons entry entries ih =>
      cases hkey : w.keyText? entry.1 with
      | none => simpa [List.filterMap_cons, hkey] using ih
      | some t =>
          by_cases hts : t = s
          · simp [hkey, hts]
          · have hstep : (Step.key s == Step.key t) = false := by simpa using Ne.symm hts
            simpa [List.filterMap_cons, List.lookup_cons, hkey, hts, hstep] using ih

/-- No other step leads to an entry. -/
theorem step_of_lookup_entries {entries : List (Ref × Ref)} {step : Step} {x : Ref × Bool}
    (h : (entries.filterMap fun e =>
      (w.keyText? e.1).map fun s => (Step.key s, e.2, d)).lookup step = some x) :
    ∃ s, step = .key s := by
  obtain ⟨p, hp, heq⟩ := List.mem_filterMap.mp (mem_of_lookup h)
  obtain ⟨s, -, heq⟩ := Option.map_eq_some_iff.mp heq
  exact ⟨s, (Prod.mk.inj heq).1.symm⟩

/-- A key with a text corresponds to the keys of the same text. -/
theorem sameKey_keyFor {key k : Ref} {s : String} (hkey : w.keyText? key = some s) :
    w.sameKey k (Inner.keyFor w key b) = (w.keyText? k == some s) := by
  have hself : Inner.keyFor w key b = key := by
    cases key with
    | none => cases hkey
    | some id => simp [Inner.keyFor, show w.text? id = some s from hkey]
  rw [World.keyText?] at hkey
  rw [hself, World.sameKey, hkey, World.keyText?]
  cases hk : k.bind w.text? with
  | some t => simp
  | none =>
      have hne : k ≠ key := by
        rintro rfl
        simp [hkey] at hk
      simp [hne]

/-- An entry of the left map has a similar one in the right map, under the key that corresponded to
its own when it was looked up. -/
def SimilarEntry (w : World κ) (rs : List (Ref × Ref)) (b : Binding) (p : Ref × Ref) : Prop :=
  ∃ b₀ k v, rs.find? (fun (k, _) => w.sameKey k (Inner.keyFor w p.1 b₀)) = some (k, v) ∧
    SimilarRefs w b p.2 v

/-- Maps whose keys correspond. -/
theorem similarSlots_of_entries {ls rs : List (Ref × Ref)} (hl : w.schemaOf? l = none)
    (hr : w.schemaOf? r = none) (hls : w.payload? l = some (.map ls))
    (hrs : w.payload? r = some (.map rs))
    (hentries : ∀ p ∈ ls, SimilarEntry w rs b p) : SimilarSlots w b l r := by
  intro d step c e hc
  simp only [World.slots, hl, hr, hls, hrs] at hc ⊢
  obtain ⟨s, rfl⟩ := step_of_lookup_entries hc
  rw [lookup_entries] at hc ⊢
  obtain ⟨p, hfound, hp⟩ := Option.map_eq_some_iff.mp hc
  obtain ⟨hleft, rfl⟩ := Prod.mk.inj hp
  obtain ⟨b₀, k, v, hfind, hrefs⟩ := hentries p (List.mem_of_find?_eq_some hfound)
  have hkey : w.keyText? p.1 = some s := by simpa using List.find?_some hfound
  simp only [sameKey_keyFor hkey] at hfind
  rw [hleft] at hrefs
  obtain ⟨c', rfl, hsimilar⟩ := hrefs.some_left
  exact ⟨c', by simp [hfind], hsimilar⟩

/-! ## What a comparison keeps -/

theorem not_mem_of_unbound (h : b.counterpart? l = none) : (l, r) ∉ b := by
  intro hmem
  have hne := List.lookup_eq_none_iff.mp h (l, r) hmem
  simp at hne

theorem not_mem_of_free (h : b.isTaken r = false) : (l, r) ∉ b := by
  intro hmem
  have hne := List.any_eq_false.mp h (l, r) hmem
  simp at hne

/-- Nothing is bound at the start. -/
theorem Consistent.nil (w : World κ) : Consistent w [] := ⟨nofun, nofun⟩

/-- Two similar objects can be bound if neither is bound yet. -/
theorem Consistent.cons (h : Consistent w b) (hl : ∀ y, (l, y) ∉ b) (hr : ∀ x, (x, r) ∉ b)
    (hsimilar : Similar w ((l, r) :: b) l r) : Consistent w ((l, r) :: b) := by
  constructor
  · intro x y x' y' hxy hxy'
    rcases List.mem_cons.mp hxy with heq | hxy <;> rcases List.mem_cons.mp hxy' with heq' | hxy'
    · cases heq
      cases heq'
      simp
    · cases heq
      exact iff_of_false (fun heq => hl y' (heq ▸ hxy')) (fun heq => hr x' (heq ▸ hxy'))
    · cases heq'
      exact iff_of_false (fun heq => hl y (heq ▸ hxy)) (fun heq => hr x (heq ▸ hxy))
    · exact h.oneToOne hxy hxy'
  · intro x y hxy
    rcases List.mem_cons.mp hxy with heq | hxy
    · cases heq
      exact hsimilar
    · exact (h.similar hxy).mono (List.mem_cons_of_mem _)

/-- Comparing two objects that are in no cycle keeps what is bound consistent, binds only what is at
or below them, and finds them similar. -/
def Sound (w : World κ) (objects : ObjId → ObjId → Bool → Comparison (Except Fault)) : Prop :=
  ∀ {l r d b b'}, Consistent w b → w.AcyclicAt l → w.AcyclicAt r → Succeeds (objects l r d) b b' →
    Consistent w b' ∧ Grows (ReflTransGen w.Refers l) (ReflTransGen w.Refers r) b b' ∧
      Similar w b' l r

section Parts

variable (hsound : Sound w inner.objects) (hl : w.AcyclicAt l) (hr : w.AcyclicAt r)

include hsound hl hr

/-- References that two objects hold. -/
theorem refs_keeps {left right : Ref} (hleft : ∀ a, left = some a → w.Refers l a)
    (hright : ∀ a, right = some a → w.Refers r a) (hb : Consistent w b)
    (h : Succeeds (inner.refs left right d) b b') :
    Consistent w b' ∧ Grows (TransGen w.Refers l) (TransGen w.Refers r) b b' ∧
      SimilarRefs w b' left right := by
  rcases Inner.refs_inv h with ⟨rfl, rfl, rfl⟩ | ⟨a, a', rfl, rfl, h⟩
  · exact ⟨hb, .refl _ _ _, trivial⟩
  · have ha := hleft a rfl
    have ha' := hright a' rfl
    obtain ⟨hb', hgrows, hsimilar⟩ := hsound hb (hl.step ha) (hr.step ha') h
    exact ⟨hb', hgrows.mono (fun _ => .head' ha) (fun _ => .head' ha'), hsimilar⟩

/-- Attributes of two objects of one class. -/
theorem attrs_keeps {schema : Schema} (hschema : w.schemaOf? l = some schema)
    (hschema' : w.schemaOf? r = some schema) (hb : Consistent w b)
    (h : Succeeds (inner.attrs w l r) b b') :
    Consistent w b' ∧ Grows (TransGen w.Refers l) (TransGen w.Refers r) b b' ∧
      SimilarSlots w b' l r := by
  obtain ⟨ls, rs, hls, hrs, hlength, h⟩ := Inner.attrs_inv h
  obtain rfl := Except.ok.inj ((World.attrs_eq_shown hschema).symm.trans hls)
  obtain rfl := Except.ok.inj ((World.attrs_eq_shown hschema').symm.trans hrs)
  have hstep : ∀ p ∈ (w.shown l).zip (w.shown r), ∀ b₁ b₂, Consistent w b₁ →
      Succeeds (inner.attr p) b₁ b₂ →
      Consistent w b₂ ∧ Grows (TransGen w.Refers l) (TransGen w.Refers r) b₁ b₂ ∧
        SimilarRefs w b₂ p.1.value.object? p.2.value.object? := by
    intro p hmem b₁ b₂ hb₁ h
    obtain ⟨ha, ha'⟩ := List.of_mem_zip hmem
    refine refs_keeps hsound hl hr (fun _ => World.refers_of_attr ha)
      (fun _ => World.refers_of_attr ha') hb₁ (d := p.1.isDefinition) ?_
    rcases Inner.values_inv (Inner.attr_inv h).2 with ⟨hnone, hnone', -, rfl⟩ | ⟨c, c', hc, hc', h⟩
    · rw [hnone, hnone']
      rfl
    · rw [hc, hc']
      exact h
  obtain ⟨hb', hgrows, hfound⟩ := all_keeps
    (fun p b => SimilarRefs w b p.1.value.object? p.2.value.object?) (Grows.refl _ _) .trans (fun {p _ _} hfound hgrows => SimilarRefs.mono hfound hgrows.kept)
    _ b hstep hb h
  exact ⟨hb', hgrows, similarSlots_of_attrs hschema hschema' hlength hfound⟩

/-- Contents of two objects of a class that is not reflected. -/
theorem contents_keeps (hschema : w.schemaOf? l = none) (hschema' : w.schemaOf? r = none)
    (hb : Consistent w b) (h : Succeeds (inner.contents w l r d) b b') :
    Consistent w b' ∧ Grows (TransGen w.Refers l) (TransGen w.Refers r) b b' ∧
      SimilarSlots w b' l r := by
  have hnoSlots : (∀ d, w.slots l d = []) → b' = b → Consistent w b' ∧
      Grows (TransGen w.Refers l) (TransGen w.Refers r) b b' ∧ SimilarSlots w b' l r := by
    rintro hslots rfl
    refine ⟨hb, .refl _ _ _, fun d s c e hc => ?_⟩
    rw [hslots] at hc
    cases hc
  rcases Inner.contents_inv h with ⟨s, hs, -, heq⟩ | ⟨s, hs, -, heq⟩ |
      ⟨ls, rs, hls, hrs, hlength, h⟩ | ⟨ls, rs, hls, hrs, hlength, h⟩ | ⟨s, t, hs, -, -, heq⟩
  · exact hnoSlots (fun d => by simp [World.slots, hschema, hs]) heq
  · exact hnoSlots (fun d => by simp [World.slots, hschema, hs]) heq
  · have hstep : ∀ p ∈ ls.zip rs, ∀ b₁ b₂, Consistent w b₁ →
        Succeeds (inner.refs p.1 p.2 d) b₁ b₂ →
        Consistent w b₂ ∧ Grows (TransGen w.Refers l) (TransGen w.Refers r) b₁ b₂ ∧
          SimilarRefs w b₂ p.1 p.2 := by
      intro p hmem b₁ b₂ hb₁ h
      obtain ⟨hp, hp'⟩ := List.of_mem_zip hmem
      exact refs_keeps hsound hl hr (fun _ heq => World.refers_of_element hls (heq ▸ hp))
        (fun _ heq => World.refers_of_element hrs (heq ▸ hp')) hb₁ h
    obtain ⟨hb', hgrows, hfound⟩ := all_keeps
      (fun (p : Ref × Ref) b => SimilarRefs w b p.1 p.2) (Grows.refl _ _) .trans
      (fun {p _ _} hfound hgrows => SimilarRefs.mono hfound hgrows.kept) _ b hstep hb h
    exact ⟨hb', hgrows, similarSlots_of_elements hschema hschema' hls hrs hlength hfound⟩
  · have hstep : ∀ p ∈ ls, ∀ b₁ b₂, Consistent w b₁ → Succeeds (inner.entry w rs d p) b₁ b₂ →
        Consistent w b₂ ∧ Grows (TransGen w.Refers l) (TransGen w.Refers r) b₁ b₂ ∧
          SimilarEntry w rs b₂ p := by
      intro p hmem b₁ b₂ hb₁ h
      obtain ⟨k, v, hfind, h⟩ := Inner.entry_inv h
      obtain ⟨hb₂, hgrows, hrefs⟩ := refs_keeps hsound hl hr
        (fun _ => World.refers_of_entry hls hmem)
        (fun _ => World.refers_of_entry hrs (List.mem_of_find?_eq_some hfind)) hb₁ h
      exact ⟨hb₂, hgrows, b₁, k, v, hfind, hrefs⟩
    obtain ⟨hb', hgrows, hfound⟩ := all_keeps (fun p b => SimilarEntry w rs b p)
      (Grows.refl _ _) .trans
      (fun {p _ _} ⟨b₀, k, v, hfind, hfound⟩ hgrows => ⟨b₀, k, v, hfind, hfound.mono hgrows.kept⟩)
      _ b hstep hb h
    exact ⟨hb', hgrows, similarSlots_of_entries hschema hschema' hls hrs hfound⟩
  · exact hnoSlots (fun d => by simp [World.slots, hschema, hs]) heq

end Parts

/-- One level of a comparison is sound if the levels below are. -/
theorem sound_succ {depth : Nat} (ih : Sound w (objectsWithin w mapFree depth)) :
    Sound w (objectsWithin w mapFree (depth + 1)) := by
  intro l r d b b' hb hl hr h
  rcases objectsWithin_inv h with ⟨hbound, rfl⟩ | ⟨hunbound, hfree, htype, h⟩
  · exact ⟨hb, .refl _ _ _, hb.similar (mem_of_lookup hbound)⟩
  have hsame : ∀ c, w.schemaOf? l = c → w.schemaOf? r = c := by
    intro c hc
    rw [World.schemaOf?, ← htype]
    exact hc
  have below : ∀ {b₁ b₂}, Grows (TransGen w.Refers l) (TransGen w.Refers r) b₁ b₂ →
      Grows (ReflTransGen w.Refers l) (ReflTransGen w.Refers r) b₁ b₂ :=
    fun hgrows => hgrows.mono (fun _ => TransGen.to_reflTransGen) (fun _ => TransGen.to_reflTransGen)
  have identical : l = r → b' = b → Consistent w b' ∧
      Grows (ReflTransGen w.Refers l) (ReflTransGen w.Refers r) b b' ∧ Similar w b' l r := by
    rintro rfl rfl
    exact ⟨hb, .refl _ _ _, .refl w _ _⟩
  rcases h with ⟨schema, hschema, h⟩ | ⟨hschema, ⟨heq, heq'⟩ | ⟨-, h⟩⟩
  · rcases Inner.nodes_inv h with ⟨heq, -, heq'⟩ | ⟨b₁, h, hend⟩
    · exact identical heq heq'
    obtain ⟨hb₁, hgrows, hslots⟩ := attrs_keeps ih hl hr hschema (hsame _ hschema) hb h
    rcases hend with ⟨-, rfl⟩ | ⟨htree, rfl⟩
    · have hsimilar : Similar w ((l, r) :: b₁) l r :=
        .of_slots htype (fun _ => .inr (by simp)) (hslots.mono (List.mem_cons_of_mem _))
      have hleft : ∀ y, (l, y) ∉ b₁ := by
        intro y hy
        rcases hgrows.new hy with hold | ⟨hcycle, -⟩
        · exact not_mem_of_unbound hunbound hold
        · exact hl.not_below hcycle
      have hright : ∀ x, (x, r) ∉ b₁ := by
        intro x hx
        rcases hgrows.new hx with hold | ⟨-, hcycle⟩
        · exact not_mem_of_free hfree hold
        · exact hr.not_below hcycle
      exact ⟨hb₁.cons hleft hright hsimilar, (below hgrows).cons .refl .refl, hsimilar⟩
    · refine ⟨hb₁, below hgrows, .of_slots htype (fun hvar => ?_) hslots⟩
      obtain ⟨schema', hschema', hkind⟩ := hvar
      obtain rfl := Option.some.inj (hschema.symm.trans hschema')
      rw [htree] at hkind
      cases hkind
  · exact identical heq heq'
  · obtain ⟨hb', hgrows, hslots⟩ := contents_keeps ih hl hr hschema (hsame _ hschema) hb h
    refine ⟨hb', below hgrows, .of_slots htype (fun hvar => ?_) hslots⟩
    obtain ⟨schema, hschema', -⟩ := hvar
    rw [hschema] at hschema'
    cases hschema'

/-- Comparisons of any depth are sound. -/
theorem objectsWithin_sound (w : World κ) (mapFree : Bool) :
    ∀ depth, Sound w (objectsWithin w mapFree depth) := by
  intro depth
  induction depth with
  | zero => exact fun _ _ _ h => nomatch h
  | succ depth ih => exact sound_succ ih

/-- Equal graphs without cycles are similar, with bindings that correspond one to one. -/
theorem similar_of_structuralEqual {left right : Ref} (hleft : w.Acyclic left)
    (hright : w.Acyclic right) (h : structuralEqual w left right mapFree = .ok true) :
    ∃ b, Consistent w b ∧ SimilarRefs w b left right := by
  obtain ⟨found, hfound, h⟩ := bind_eq_ok.mp h
  cases found with
  | none => exact nomatch h
  | some b =>
      refine ⟨b, ?_⟩
      rcases Inner.refs_inv hfound with ⟨rfl, rfl, rfl⟩ | ⟨l, r, rfl, rfl, hobjects⟩
      · exact ⟨.nil w, trivial⟩
      · obtain ⟨hb, -, hsimilar⟩ := objectsWithin_sound w mapFree _ (.nil w) (hleft l rfl)
          (hright r rfl) hobjects
        exact ⟨hb, hsimilar⟩

end Equality

end ObjectRuntime
