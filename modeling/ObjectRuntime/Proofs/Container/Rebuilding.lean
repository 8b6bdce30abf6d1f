import ObjectRuntime.Proofs.Container.Deciding
import ObjectRuntime.Proofs.Container.Views
set_option autoImplicit false

/-!
# Conversions of parts

The parts of a container are converted one after another, each in the world that the ones before it
have left.  What is settled does not change meanwhile, so a conversion succeeds exactly if the value
can be converted (`World.decisive`): the check that tells whether a container is passed on, and the
conversion of its parts if it is not, take the same containers.
-/

namespace ObjectRuntime

open ObjectClass (Vocabulary)
open Run (Advances Borrowed Conserves Decides)
open World (Continues Ready)
open Views (passAs)

variable {κ α β : Type} {P : κ → Prop} {w w' w₁ : World κ} {cs : List ObjectClass}
  {others held : List ObjId} {a : ObjId} {c : ObjectClass} {r : Ref} {v : Value}
  {t elem key value : RefType} {parts : List (RefType × Ref)}

/-! ## Loops -/

/-- Each step of a loop conserves references, in whatever world that is ready it starts. -/
def World.StepsConserve (P : κ → Prop) (cs : List ObjectClass) (others : List ObjId) (w : World κ)
    (owned : β → List ObjId) (f : α → Run κ β) (as : List α) : Prop :=
  ∀ a ∈ as, ∀ w₁ held₁, Ready P cs others held₁ w₁ → w.Continues cs others w₁ →
    Conserves P w₁ held₁ owned [] (f a)

namespace Run

/-- What has come of a loop.  Each result stands in a relation to what it has been made of that
lasts while it is held, and a new result in another one to whatever has been held before. -/
theorem mapOwned_made {owned : β → List ObjId} {f : α → Run κ β} {R : World κ → α → β → Prop}
    {S : β → β → Prop} (hcs : Vocabulary cs) (hadvances : ∀ a, Advances (· ∈ cs) (f a))
    (hlasts : ∀ {w w' a b}, w.Proceeds (owned b) w' → R w a b → R w' a b) :
    ∀ {as : List α} {bs : List β} {w w' : World κ} {held : List ObjId}, Ready P cs others held w →
      w.StepsConserve P cs others owned f as →
      (∀ a ∈ as, ∀ w₁ held₁ b w₂, Ready P cs others held₁ w₁ → w.Continues cs others w₁ →
        f a w₁ = (.ok b, w₂) → R w₂ a b ∧ ∀ b₀, (∀ x ∈ owned b₀, x ∈ held₁) → S b₀ b) →
      mapOwned owned f as w = (.ok bs, w') →
      Ready P cs others (bs.flatMap owned ++ held) w' ∧ w.Continues cs others w' ∧
        w.Proceeds held w' ∧ List.Forall₂ (R w') as bs ∧ bs.Pairwise S ∧
        ∀ b₀, (∀ x ∈ owned b₀, x ∈ held) → ∀ b ∈ bs, S b₀ b
  | [], bs, w, w', held, h, _, _, hrun => by
      cases hrun
      exact ⟨h, .refl h.regular cs others, .refl h.regular held, .nil, .nil,
        fun _ _ _ hb => absurd hb List.not_mem_nil⟩
  | a :: as, bs, w, w', held, h, hconserves, hmade, hrun => by
      obtain ⟨b, w₁, hfirst, hrest⟩ := run_bind_eq_ok.mp hrun
      obtain ⟨bs', w₂, hlater, hdone⟩ := run_bind_eq_ok.mp hrest
      cases hdone
      have hlater := releasingOnFault_eq_ok.mp hlater
      have hrefl := Continues.refl h.regular cs others
      have hfirstConserves := hconserves a List.mem_cons_self w held h hrefl
      obtain ⟨h₁, hcontinues₁⟩ := h.after hcs hfirstConserves (hadvances a) hfirst
      have hproceeds₁ := h.proceeds hcs hfirstConserves (hadvances a) hfirst
      obtain ⟨hR, hS⟩ := hmade a List.mem_cons_self w held b w₁ h hrefl hfirst
      obtain ⟨h₂, hcontinues₂, hproceeds₂, hall, hpairs, hapart⟩ :=
        mapOwned_made (R := R) (S := S) hcs hadvances hlasts h₁
          (fun a' ha' w₂ held₂ h₂ hcontinues₂ => hconserves a' (List.mem_cons_of_mem a ha') w₂ held₂
            h₂ (hcontinues₁.trans hcontinues₂))
          (fun a' ha' w₂ held₂ b' w₃ h₂ hcontinues₂ => hmade a' (List.mem_cons_of_mem a ha') w₂
            held₂ b' w₃ h₂ (hcontinues₁.trans hcontinues₂)) hlater
      refine ⟨h₂.perm ?_, hcontinues₁.trans hcontinues₂, hproceeds₁.trans hproceeds₂.of_append, ?_,
        ?_, ?_⟩
      · rw [List.flatMap_cons, List.append_assoc]
        exact List.perm_append_comm_assoc _ _ _
      · exact .cons (hlasts (hproceeds₂.mono fun _ hx => List.mem_append_left _ hx) hR) hall
      · exact .cons (hapart b fun _ hx => List.mem_append_left _ hx) hpairs
      · exact fun b₀ hb₀ => List.forall_mem_cons.mpr
          ⟨hS b₀ hb₀, hapart b₀ fun x hx => List.mem_append_right _ (hb₀ x hx)⟩

end Run

/-! ## Parts -/

namespace Views

theorem conserves_passAs (t : RefType) (hb : w.Balanced P held)
    (hr : ∀ a, r = some a → w.heap.Reachable held a) :
    Conserves P w held Option.toList [] (passAs t r) := by
  have hconverts : Run.Converts P (Run.decodeRef (κ := κ) t) := Run.converts_decodeRef t
  exact hconverts.travelling hb hr

theorem advances_passAs {S : ObjectClass → Prop} (hS : ObjectClass.Covers S) (ht : t.Within S)
    (r : Ref) : Advances S (passAs t r : Run κ Ref) :=
  (Run.advances_travel hS r false).bind fun v => Run.advances_decodeRef hS ht v

/-- An entry is converted part by part, its key first. -/
theorem decodeEntry_eq (key value : RefType) (e : Ref × Ref) :
    (Run.decodeEntry (Run.decodeRef key) (Run.decodeRef value) e : Run κ (Ref × Ref)) = do
      let k ← passAs key e.1
      let v ← Run.releasingOnFault k.toList (passAs value e.2)
      return (k, v) := by
  rw [Run.decodeEntry, passAs, bind_assoc]
  rfl

end Views

namespace World

/-- A conversion to the type decides, in every world that is ready, whether a value can be
converted. -/
def Decisive (P : κ → Prop) (cs : List ObjectClass) (others : List ObjId) (t : RefType) : Prop :=
  ∀ {w : World κ} {held : List ObjId} {v : Value}, Ready P cs others held w →
    Borrowed w others v → Decides (w.recalled.Convertible t v) (Run.decodeRef t v) w

namespace Ready

variable (h : Ready P cs others held w) (hcs : Vocabulary cs)
include h hcs

theorem after_passAs {r' : Ref} (ht : t.Within (· ∈ cs)) (hr : w.Reaches others r)
    (hrun : passAs t r w = (.ok r', w')) :
    Ready P cs others (r'.toList ++ held) w' ∧ w.Continues cs others w' :=
  h.after hcs (Views.conserves_passAs t h.balanced fun a ha => h.reachable (hr a ha))
    (Views.advances_passAs hcs.covers ht r) hrun

/-- A reference is converted as it travels. -/
theorem decides_passAs (hdecisive : Decisive P cs others t) (ht : t.Within (· ∈ cs))
    (hr : w.Reaches others r) : Decides (w.recalled.PartConvertible (t, r)) (passAs t r) w := by
  obtain ⟨w₁, htravel⟩ := h.travel hcs hr
  obtain ⟨h₁, hcontinues⟩ := h.quiet hcs (Run.quiet_travel r false)
    (Run.advances_travel hcs.covers r false) htravel
  have hv : Borrowed w others (w.recalled.classifyRef r false) := hr.borrowed
  refine .after htravel ((hdecisive h₁ (hv.since hcontinues.proceeds.since)).congr ?_)
  exact (hcontinues.resembles.convertible_iff hcs ht hr.borrowed).symm

theorem decides_decodeEntry {e : Ref × Ref} (hkey : Decisive P cs others key)
    (hvalue : Decisive P cs others value) (ht : (RefType.map key value).Within (· ∈ cs))
    (hk : w.Reaches others e.1) (hv : w.Reaches others e.2) :
    Decides (w.recalled.PartConvertible (key, e.1) ∧ w.recalled.PartConvertible (value, e.2))
      (Run.decodeEntry (Run.decodeRef key) (Run.decodeRef value) e) w := by
  rw [Views.decodeEntry_eq]
  refine (h.decides_passAs hcs hkey ht.1 hk).bind fun k w₁ hrun => ?_
  obtain ⟨h₁, hcontinues⟩ := h.after_passAs hcs ht.1 hk hrun
  have hrest := (h₁.decides_passAs hcs hvalue ht.2 (hcontinues.reaches hv)).releasingOnFault
    k.toList
  refine (hrest.bind fun _ _ _ => Run.decides_pure trivial).congr ?_
  rw [and_true, hcontinues.resembles.partConvertible_iff hcs (p := (value, e.2)) ht.2 hv]

/-- A new object of a class of the vocabulary can be made. -/
theorem decides_create (hc : c ∈ cs) (payload : Payload κ) :
    Decides True (Run.create c payload) w := by
  obtain ⟨first, w₁, htouch, -⟩ := h.touch hcs hc
  exact .inl ⟨trivial, _, _, Run.create_of_touch htouch⟩

/-- Entries can be collected. -/
theorem decides_collectEntries (pairs : List (Ref × Ref)) :
    Decides True (Run.collectEntries pairs) w := by
  have hasks : ∀ (pairs : List (Ref × Ref)) (w₁ : World κ), Ready P cs others held w₁ →
      ∃ w₂, (pairs.forM fun e => Run.askKey e.1) w₁ = (.ok (), w₂) := by
    intro pairs
    induction pairs with
    | nil => exact fun w₁ _ => ⟨w₁, rfl⟩
    | cons e pairs ih =>
        intro w₁ h₁
        obtain ⟨w₂, hrun, h₂, -⟩ := h₁.askKey hcs e.1
        obtain ⟨w₃, hrest⟩ := ih w₂ h₂
        exact ⟨w₃, (run_bind_of_ok hrun).trans hrest⟩
  obtain ⟨w₁, hrun⟩ := hasks pairs w h
  exact .after (Run.releasingOnFault_of_ok hrun) (.inl ⟨trivial, _, _, rfl⟩)

omit h hcs in
theorem conserves_element {elems : List Ref} (ha : w.heap.Reachable others a)
    (hcontent : w.payload? a = some (.array elems)) :
    w.StepsConserve P cs others Option.toList (passAs elem) elems := by
  intro e he w₁ held₁ h₁ hcontinues
  have hr := hcontinues.reaches (.element ha hcontent he)
  exact Views.conserves_passAs elem h₁.balanced fun x hx => h₁.reachable (hr x hx)

omit h hcs in
theorem conserves_entry {entries : List (Ref × Ref)} (ha : w.heap.Reachable others a)
    (hcontent : w.payload? a = some (.map entries)) :
    w.StepsConserve P cs others Run.entryReferences
      (Run.decodeEntry (Run.decodeRef key) (Run.decodeRef value)) entries := by
  intro e he w₁ held₁ h₁ hcontinues
  obtain ⟨hk, hv⟩ := Reaches.entry ha hcontent he
  have hconvertKey : Run.Converts P (Run.decodeRef (κ := κ) key) := Run.converts_decodeRef key
  refine hconvertKey.entry (Run.converts_decodeRef value) h₁.balanced fun x hx => h₁.reachable ?_
  rcases hx with hx | hx
  · exact hcontinues.reaches hk x hx
  · exact hcontinues.reaches hv x hx

omit h hcs in
theorem advances_entry {S : ObjectClass → Prop} (hS : ObjectClass.Covers S)
    (ht : (RefType.map key value).Within S) (e : Ref × Ref) :
    Advances S (Run.decodeEntry (Run.decodeRef key) (Run.decodeRef value) e :
      Run κ (Ref × Ref)) := by
  rw [Views.decodeEntry_eq]
  refine (Views.advances_passAs hS ht.1 e.1).bind fun k => ?_
  exact ((Views.advances_passAs hS ht.2 e.2).releasingOnFault _).bind fun _ => Run.advances_pure _

/-- A new array is made if all elements can be converted. -/
theorem decides_rebuildArray {elems : List Ref} (hdecisive : Decisive P cs others elem)
    (ht : elem.Within (· ∈ cs)) (ha : w.heap.Reachable others a)
    (hcontent : w.payload? a = some (.array elems)) :
    Decides (∀ e ∈ elems, w.recalled.PartConvertible (elem, e))
      (Run.rebuildArray (Run.decodeRef elem) a) w := by
  refine Run.decides_get ?_
  rw [Arr.elements_of_payload hcontent]
  have hconserves : w.StepsConserve P cs others Option.toList (passAs elem) elems :=
    conserves_element ha hcontent
  have hadvances := Views.advances_passAs (κ := κ) hcs.covers ht
  have hloop : Decides (∀ e ∈ elems, w.recalled.PartConvertible (elem, e))
      (Run.mapOwned Option.toList (passAs elem) elems) w := by
    refine Run.decides_mapOwned hcs hadvances h fun e he w₁ held₁ h₁ hcontinues =>
      ⟨hconserves e he w₁ held₁ h₁ hcontinues, ?_⟩
    have hr := Reaches.element ha hcontent he
    refine (h₁.decides_passAs hcs hdecisive ht (hcontinues.reaches hr)).congr ?_
    exact (hcontinues.resembles.partConvertible_iff hcs (p := (elem, e)) ht hr).symm
  refine (hloop.bind fun elems' w₁ hrun => ?_).congr (and_iff_left trivial).symm
  obtain ⟨h₁, -⟩ := Run.mapOwned_made (R := fun _ _ _ => True) (S := fun _ _ => True) hcs hadvances
    (fun _ _ => trivial) h hconserves (fun _ _ _ _ _ _ _ _ _ => ⟨trivial, fun _ _ => trivial⟩) hrun
  exact h₁.decides_create hcs (hcs.builtins .array (by decide)) _

/-- A new map is made if all keys and values can be converted. -/
theorem decides_rebuildMap {entries : List (Ref × Ref)} (hkey : Decisive P cs others key)
    (hvalue : Decisive P cs others value) (ht : (RefType.map key value).Within (· ∈ cs))
    (ha : w.heap.Reachable others a) (hcontent : w.payload? a = some (.map entries)) :
    Decides (∀ e ∈ entries,
        w.recalled.PartConvertible (key, e.1) ∧ w.recalled.PartConvertible (value, e.2))
      (Run.rebuildMap (Run.decodeRef key) (Run.decodeRef value) a) w := by
  refine Run.decides_get ?_
  rw [Dict.entries_of_payload hcontent]
  have hconserves : w.StepsConserve P cs others Run.entryReferences
      (Run.decodeEntry (Run.decodeRef key) (Run.decodeRef value)) entries :=
    conserves_entry ha hcontent
  have hadvances := advances_entry (κ := κ) hcs.covers ht
  have hloop : Decides (∀ e ∈ entries,
        w.recalled.PartConvertible (key, e.1) ∧ w.recalled.PartConvertible (value, e.2))
      (Run.mapOwned Run.entryReferences
        (Run.decodeEntry (Run.decodeRef key) (Run.decodeRef value)) entries) w := by
    refine Run.decides_mapOwned hcs hadvances h fun e he w₁ held₁ h₁ hcontinues =>
      ⟨hconserves e he w₁ held₁ h₁ hcontinues, ?_⟩
    obtain ⟨hk, hv⟩ := Reaches.entry ha hcontent he
    refine (h₁.decides_decodeEntry hcs hkey hvalue ht (hcontinues.reaches hk)
      (hcontinues.reaches hv)).congr ?_
    rw [hcontinues.resembles.partConvertible_iff hcs (p := (key, e.1)) ht.1 hk,
      hcontinues.resembles.partConvertible_iff hcs (p := (value, e.2)) ht.2 hv]
  refine (hloop.bind fun pairs w₁ hrun => ?_).congr (and_iff_left trivial).symm
  obtain ⟨h₁, -⟩ := Run.mapOwned_made (R := fun _ _ _ => True) (S := fun _ _ => True) hcs hadvances
    (fun _ _ => trivial) h hconserves (fun _ _ _ _ _ _ _ _ _ => ⟨trivial, fun _ _ => trivial⟩) hrun
  refine ((h₁.decides_collectEntries hcs pairs).bind fun collected w₂ hcollect => ?_).congr
    (and_iff_left trivial).symm
  obtain ⟨h₂, -⟩ := h₁.spends hcs h.among (Run.conserves_collectEntries h₁.balanced)
    (Run.advances_collectEntries hcs.covers pairs) hcollect
  exact h₂.decides_create hcs (hcs.builtins .map (by decide)) _

/-- A conversion to a container type decides if the parts of every container can be converted or
not. -/
theorem decides_container (ht : t.Within (· ∈ cs)) (hcontainer : t.IsContainer)
    (hv : Borrowed w others v)
    (hrebuild : ∀ a parts w₁, w.heap.Reachable others a → w.Parts t a parts →
      Ready P cs others (a :: held) w₁ → w.Continues cs others w₁ →
      Decides (∀ p ∈ parts, w.recalled.PartConvertible p) (Run.rebuildAs t a) w₁) :
    Decides (w.recalled.Convertible t v) (Run.decodeRef t v) w := by
  rw [Run.decodeRef_container hcontainer]
  by_cases hnull : v = .null
  · subst hnull
    exact .inl ⟨(World.convertible_container hcontainer).mpr (.inl rfl), none, w, rfl⟩
  cases hobject : v.object? with
  | none =>
      refine .inr ⟨?_, h.decodeContainer_plain hcs ht hcontainer hobject hnull _⟩
      rw [World.convertible_container hcontainer]
      rintro (hv | ⟨a, _, ha, -⟩)
      · exact hnull hv
      · cases hobject.symm.trans ha
  | some a =>
      obtain ⟨tag, rfl⟩ := Value.eq_of_object? hobject
      have ha := hv a rfl
      by_cases hsome : ∃ parts, w.Parts t a parts
      · obtain ⟨parts, hparts⟩ := hsome
        have hrecalled : w.recalled.Parts t a parts := hparts.congr rfl
        obtain ⟨w₁, h₁, hcontinues, hrun⟩ :=
          h.decodeContainer_object hcs ht hcontainer ha hparts tag (Run.rebuildAs t)
        refine Decides.congr ?_ (hrecalled.convertible_iff rfl)
        unfold Decides
        rw [hrun]
        cases hcheck : w.recalled.mismatch? t (some a) with
        | none =>
            refine .inl ⟨fun p hp => ?_, some a, w₁, rfl⟩
            exact h.convertible_of_passes hcs (hparts.within ht p hp) (hparts.reaches ha p hp)
              (hrecalled.passes_iff.mp hcheck p hp)
        | some m =>
            rcases hrebuild a parts w₁ ha hparts h₁ hcontinues with
              ⟨hgood, b, w₂, hok⟩ | ⟨hbad, cause, w₂, herror⟩
            · exact .inl ⟨hgood, _, _, Run.renew_of_ok hok⟩
            · exact .inr ⟨hbad, _, _, Run.renew_of_error herror⟩
      · refine .inr ⟨?_, h.decodeContainer_other hcs ht hcontainer ha hsome tag _⟩
        rw [World.convertible_container hcontainer]
        rintro (hv | ⟨b, parts, hb, hparts, -⟩)
        · exact hnull hv
        · cases hb
          exact hsome ⟨parts, hparts.congr rfl⟩

end Ready

/-- Whether a conversion succeeds is settled: it does if the value can be converted. -/
theorem decisive (hcs : Vocabulary cs) (ht : t.Within (· ∈ cs)) : Decisive P cs others t := by
  induction t with
  | named name cls =>
      intro w held v h hv
      exact h.decides_objectOf hcs name ht hv
  | array elem ih =>
      intro w held v h hv
      refine h.decides_container hcs (t := .array elem) ht trivial hv
        fun a parts w₁ ha hparts h₁ hcontinues => ?_
      obtain ⟨elems, hcontent, rfl⟩ := parts_array_iff.mp hparts
      have hcontent₁ := (hcontinues.payload? ha).trans hcontent
      refine (h₁.decides_rebuildArray hcs (ih ht) ht (hcontinues.proceeds.since.reachable ha)
        hcontent₁).congr ?_
      rw [List.forall_mem_map]
      exact forall₂_congr fun e he => (hcontinues.resembles.partConvertible_iff hcs
        (p := (elem, e)) ht (.element ha hcontent he)).symm
  | map key value ihKey ihValue =>
      intro w held v h hv
      refine h.decides_container hcs (t := .map key value) ht trivial hv
        fun a parts w₁ ha hparts h₁ hcontinues => ?_
      obtain ⟨entries, hcontent, rfl⟩ := parts_map_iff.mp hparts
      have hcontent₁ := (hcontinues.payload? ha).trans hcontent
      refine (h₁.decides_rebuildMap hcs (ihKey ht.1) (ihValue ht.2) ht
        (hcontinues.proceeds.since.reachable ha) hcontent₁).congr ?_
      rw [forall_mem_entryParts]
      refine forall₂_congr fun e he => ?_
      obtain ⟨hk, hv⟩ := Reaches.entry ha hcontent he
      rw [hcontinues.resembles.partConvertible_iff hcs (p := (key, e.1)) ht.1 hk,
        hcontinues.resembles.partConvertible_iff hcs (p := (value, e.2)) ht.2 hv]

end World

end ObjectRuntime
