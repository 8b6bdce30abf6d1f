import ObjectRuntime.Proofs.Container.Convertible
import ObjectRuntime.Proofs.Function.Returning
set_option autoImplicit false

/-!
# Objects and containers that are taken

In a world that is ready the conversion to a reference of a class succeeds if the value can be
converted, and ends with an error otherwise.  A container that passes the check is passed on, one
that does not is renewed, and nothing else is taken for a container.
-/

namespace ObjectRuntime

open ObjectClass (Vocabulary)
open World (Continues Ready)

variable {κ α β : Type} {P : κ → Prop} {w w' w₁ : World κ} {cs : List ObjectClass}
  {others held : List ObjId} {a : ObjId} {c : ObjectClass} {r : Ref} {v : Value}
  {t elem key value : RefType} {parts : List (RefType × Ref)} {good good' : Prop} {m : String}

namespace Run

/-! ## Operations with a condition -/

/-- The operation succeeds if the condition holds, and ends with an error otherwise. -/
def Decides (good : Prop) (x : Run κ α) (w : World κ) : Prop :=
  (good ∧ ∃ a w', x w = (.ok a, w')) ∨ (¬ good ∧ ∃ cause w', x w = (.error (.error cause), w'))

namespace Decides

theorem ok_iff {x : Run κ α} (h : Decides good x w) : (∃ a w', x w = (.ok a, w')) ↔ good := by
  rcases h with ⟨hgood, hok⟩ | ⟨hbad, cause, w₁, hrun⟩
  · exact iff_of_true hok hgood
  · refine iff_of_false ?_ hbad
    rintro ⟨a, w', hok⟩
    cases hrun.symm.trans hok

theorem congr {x : Run κ α} (h : Decides good x w) (hiff : good' ↔ good) : Decides good' x w := by
  unfold Decides
  rwa [hiff]

/-- The first step has succeeded. -/
theorem after {x : Run κ α} {f : α → Run κ β} {a : α} (hrun : x w = (.ok a, w₁))
    (h : Decides good (f a) w₁) : Decides good (x >>= f) w := by
  unfold Decides
  rwa [run_bind_of_ok hrun]

/-- Both steps have to succeed. -/
theorem bind {x : Run κ α} {f : α → Run κ β} (hx : Decides good x w)
    (hf : ∀ a w₁, x w = (.ok a, w₁) → Decides good' (f a) w₁) :
    Decides (good ∧ good') (x >>= f) w := by
  rcases hx with ⟨hgood, a, w₁, hrun⟩ | ⟨hbad, cause, w₁, hrun⟩
  · exact after hrun ((hf a w₁ hrun).congr (and_iff_right hgood))
  · exact .inr ⟨fun h => hbad h.1, cause, w₁, run_bind_of_error hrun⟩

theorem releasingOnFault {x : Run κ α} (hx : Decides good x w) (ids : List ObjId) :
    Decides good (releasingOnFault ids x) w := by
  rcases hx with ⟨hgood, a, w₁, hrun⟩ | ⟨hbad, cause, w₁, hrun⟩
  · exact .inl ⟨hgood, a, w₁, releasingOnFault_of_ok hrun⟩
  · exact .inr ⟨hbad, cause, _, releasingOnFault_of_error hrun⟩

end Decides

theorem decides_pure {a : α} (hgood : good) : Decides good (pure a) w := .inl ⟨hgood, a, w, rfl⟩

theorem decides_fail {cause : Error} (hbad : ¬ good) :
    Decides good (fail cause : Run κ α) w := .inr ⟨hbad, cause, w, rfl⟩

/-- The world is read. -/
theorem decides_get {f : World κ → Run κ β} (h : Decides good (f w) w) :
    Decides good (get >>= f) w := h

/-- A loop succeeds if each of its steps does. -/
theorem decides_mapOwned {owned : β → List ObjId} {f : α → Run κ β} {good : α → Prop}
    (hcs : Vocabulary cs) (hadvances : ∀ a, Advances (· ∈ cs) (f a)) :
    ∀ {as : List α} {w : World κ} {held : List ObjId}, Ready P cs others held w →
      (∀ a ∈ as, ∀ w₁ held₁, Ready P cs others held₁ w₁ → w.Continues cs others w₁ →
        Conserves P w₁ held₁ owned [] (f a) ∧ Decides (good a) (f a) w₁) →
      Decides (∀ a ∈ as, good a) (mapOwned owned f as) w
  | [], w, held, _, _ => decides_pure (List.forall_mem_nil _)
  | a :: as, w, held, h, hstep => by
      obtain ⟨hconserves, hdecides⟩ :=
        hstep a List.mem_cons_self w held h (.refl h.regular cs others)
      refine Decides.congr ?_ List.forall_mem_cons
      refine hdecides.bind fun b w₁ hrun => ?_
      obtain ⟨h₁, hcontinues⟩ := h.after hcs hconserves (hadvances a) hrun
      have hrest := decides_mapOwned hcs hadvances h₁ fun a' ha' w₂ held₂ h₂ hcontinues₂ =>
        hstep a' (List.mem_cons_of_mem a ha') w₂ held₂ h₂ (hcontinues.trans hcontinues₂)
      refine ((hrest.releasingOnFault (owned b)).bind fun bs w₂ _ => ?_).congr
        (and_iff_left trivial).symm
      exact decides_pure trivial

end Run

open Run (Advances Borrowed Conserves Decides)

/-! ## Objects -/

theorem Value.eq_of_object? (h : v.object? = some a) : ∃ tag, v = .object tag a := by
  cases v with
  | object tag b =>
      cases h
      exact ⟨tag, rfl⟩
  | _ => cases h

namespace World.Ready

variable (h : Ready P cs others held w) (hcs : Vocabulary cs)
include h hcs

/-- A class is looked up.  Afterwards an object that others can reach is found to belong to it if
that was settled. -/
theorem touches (hc : c ∈ cs) :
    ∃ first w₁, Run.touch c w = (.ok first, w₁) ∧ Ready P cs others held w₁ ∧
      w.Continues cs others w₁ ∧ w₁.types.classIndex? c = some first ∧
      ∀ a, w.heap.Reachable others a → w₁.isInstance a c = w.recalled.isInstance a c := by
  obtain ⟨first, w₁, htouch, hfirst⟩ := h.touch hcs hc
  obtain ⟨h₁, hcontinues⟩ := h.quiet hcs (Run.quiet_touch c) (Run.advances_touch hc) htouch
  refine ⟨first, w₁, htouch, h₁, hcontinues, hfirst, fun a ha => ?_⟩
  rw [isInstance_eq_recalled h₁.regular hfirst, hcontinues.resembles.member a ha c hc]

/-- One more reference to an object that others can reach. -/
theorem retain (ha : w.heap.Reachable others a) :
    ∃ w₁, Run.retain a w = (.ok (), w₁) ∧ Ready P cs others (a :: held) w₁ ∧
      w.Continues cs others w₁ := by
  have hretain : Run.retain a w = (.ok (), { w with heap := w.heap.retain a }) := rfl
  obtain ⟨h₁, hcontinues⟩ := h.after hcs
    (Run.conserves_retain [] [] h.balanced (h.reachable ha)) (Run.advances_modifyHeap _) hretain
  exact ⟨_, hretain, h₁, hcontinues⟩

/-- An object of the class is passed on, any other is not. -/
theorem decides_memberOf (hc : c ∈ cs) (ha : w.heap.Reachable others a) :
    Decides (w.recalled.isInstance a c = true) (Run.memberOf c a) w := by
  obtain ⟨first, w₁, htouch, -, -, -, hmember⟩ := h.touches hcs hc
  refine Decides.releasingOnFault (.after htouch (Run.decides_get ?_)) [a]
  rw [← hmember a ha]
  split
  · exact Run.decides_pure ‹_›
  · exact Run.decides_fail ‹_›

/-- References to a class accept what is directly below the root if the class is the root or the
same. -/
theorem accepts {boxed : ObjectClass} (hboxed : boxed.IsLeaf) (hc : c ∈ cs) :
    ∃ w₁, Run.accepts boxed c w = (.ok (decide (c = .root ∨ c = boxed)), w₁) ∧
      Ready P cs others held w₁ ∧ w.Continues cs others w₁ := by
  have hmem := hcs.builtins boxed hboxed.builtin
  obtain ⟨i, w₁, htouch, h₁, hcontinues₁, hi, -⟩ := h.touches hcs hmem
  obtain ⟨j, w₂, htouch₂, h₂, hcontinues, hj, -⟩ := h₁.touches hcs hc
  have hderived := h₂.equipped.derivedFrom_iff hcs hmem hboxed.ne_root hboxed.base hc
    (h₂.regular.index?_classIndex (hcontinues.proceeds.later.classIndex? hi))
    (h₂.regular.index?_classIndex hj)
  refine ⟨w₂, ?_, h₂, hcontinues₁.trans hcontinues⟩
  rw [Run.accepts, run_bind_of_ok htouch, run_bind_of_ok htouch₂, run_get_bind,
    ← Bool.decide_congr hderived, Bool.decide_eq_true]
  rfl

/-- A content whose class is accepted becomes a new object. -/
theorem createAccepted_cons {p : ObjectClass × Payload κ} (hc : c ∈ cs) (hp : p.1.IsLeaf)
    (haccepted : c = .root ∨ c = p.1) (rest : List (ObjectClass × Payload κ)) :
    ∃ b w₁, Run.createAccepted c (p :: rest) w = (.ok (some b), w₁) ∧ w₁.ObjectAt b p.1 p.2 ∧
      w.heap.cells.size ≤ b.index := by
  obtain ⟨w₁, haccepts, h₁, hcontinues⟩ := h.accepts hcs hp hc
  obtain ⟨first, w₂, htouch, -, hcontinues₂, -⟩ := h₁.touches hcs (hcs.builtins p.1 hp.builtin)
  have hmake : Run.create p.1 p.2 w₁ = _ := Run.create_of_touch htouch
  rw [Run.createAccepted, run_bind_of_ok haccepts, if_pos (decide_eq_true haccepted)]
  exact ⟨_, _, run_map_of_ok hmake, (Run.isFresh_of_create hmake).objectAt,
    (hcontinues.trans hcontinues₂).proceeds.size_le⟩

/-- The first content whose class is accepted becomes a new object, if there is one. -/
theorem createAccepted (hc : c ∈ cs) {contents : List (ObjectClass × Payload κ)}
    (hcontents : ∀ p ∈ contents, p.1.IsLeaf) :
    (∃ p ∈ contents, (c = .root ∨ c = p.1) ∧ ∃ b w₁,
        Run.createAccepted c contents w = (.ok (some b), w₁) ∧ w₁.ObjectAt b p.1 p.2 ∧
          w.heap.cells.size ≤ b.index) ∨
      (¬ ∃ p ∈ contents, c = .root ∨ c = p.1) ∧
        ∃ w₁, Run.createAccepted c contents w = (.ok none, w₁) := by
  induction contents generalizing w with
  | nil => exact .inr ⟨by simp, w, rfl⟩
  | cons p rest ih =>
      obtain ⟨hp, hrest⟩ := List.forall_mem_cons.mp hcontents
      by_cases haccepted : c = .root ∨ c = p.1
      · exact .inl ⟨p, List.mem_cons_self, haccepted, h.createAccepted_cons hcs hc hp haccepted rest⟩
      · obtain ⟨w₁, haccepts, h₁, hcontinues⟩ := h.accepts hcs hp hc
        rw [Run.createAccepted, run_bind_of_ok haccepts, decide_eq_false haccepted]
        rcases ih h₁ hrest with ⟨q, hq, haccepted', b, w₂, hrun, hat, hnew⟩ | ⟨hnone, hmade⟩
        · exact .inl ⟨q, List.mem_cons_of_mem p hq, haccepted', b, w₂, hrun, hat,
            hcontinues.proceeds.size_le.trans hnew⟩
        · refine .inr ⟨?_, hmade⟩
          rintro ⟨q, hq, haccepted'⟩
          rcases List.mem_cons.mp hq with rfl | hq
          · exact haccepted haccepted'
          · exact hnone ⟨q, hq, haccepted'⟩

omit h hcs in
/-- A plain value stands for an object that is made of it. -/
theorem objectOf_made (c : ObjectClass) (hplain : v.object? = none) (hnull : v ≠ .null) :
    (Run.objectOf c v : Run κ Ref) = (do
      let made ← Run.createAccepted c (boxings v)
      made.elim (do Run.fail ((← get).mismatchWith v c.key)) (Run.memberOf c)) := by
  cases v with
  | null => exact absurd rfl hnull
  | object tag a => cases hplain
  | _ => exact bind_congr fun made => by cases made <;> rfl

omit h hcs in
/-- An object that has been made of an accepted content is passed on. -/
theorem objectOf_of_created {b : ObjId} {p : ObjectClass × Payload κ} (hplain : v.object? = none)
    (hnull : v ≠ .null) (haccepted : c = .root ∨ c = p.1)
    (hmake : Run.createAccepted c (boxings v) w = (.ok (some b), w₁))
    (hat : w₁.ObjectAt b p.1 p.2) : Run.objectOf c v w = (.ok (some b), w₁) := by
  rw [objectOf_made c hplain hnull, run_bind_of_ok hmake]
  refine Run.memberOf_of_isInstance ?_
  rcases haccepted with rfl | rfl
  · exact isInstance_root w₁ b
  · exact isInstance_of_ofClass hat.cls

/-- A plain value is put into a new object of an accepted class, if there is one. -/
theorem objectOf_plain (hc : c ∈ cs) (hplain : v.object? = none) (hnull : v ≠ .null) :
    (∃ p ∈ (boxings v : List (ObjectClass × Payload κ)), (c = .root ∨ c = p.1) ∧ ∃ b w₁,
        Run.objectOf c v w = (.ok (some b), w₁) ∧ w₁.ObjectAt b p.1 p.2 ∧
          w.heap.cells.size ≤ b.index) ∨
      (¬ ∃ p ∈ (boxings v : List (ObjectClass × Payload κ)), c = .root ∨ c = p.1) ∧
        ∃ cause w₁, Run.objectOf c v w = (.error (.error cause), w₁) := by
  rcases h.createAccepted hcs hc fun p hp => ObjectClass.isLeaf_of_boxing (boxings_cls v p hp) with
    ⟨p, hp, haccepted, b, w₁, hmake, hat, hnew⟩ | ⟨hnone, w₁, hmake⟩
  · exact .inl ⟨p, hp, haccepted, b, w₁, objectOf_of_created hplain hnull haccepted hmake hat, hat,
      hnew⟩
  · refine .inr ⟨hnone, w₁.mismatchWith v c.key, w₁, ?_⟩
    rw [objectOf_made c hplain hnull, run_bind_of_ok hmake]
    rfl

/-- Any object may be asked for: what is made of a plain value is the first object that can stand
for it. -/
theorem objectOf_root {p : ObjectClass × Payload κ} {rest : List (ObjectClass × Payload κ)}
    (hboxings : boxings v = p :: rest) :
    ∃ b w₁, Run.objectOf .root v w = (.ok (some b), w₁) ∧ w₁.ObjectAt b p.1 p.2 ∧
      w.heap.cells.size ≤ b.index := by
  have hplain : v.object? = none ∧ v ≠ .null := by
    cases v with
    | null | object => cases hboxings
    | _ => exact ⟨rfl, Value.noConfusion⟩
  have hp : p.1.IsLeaf := ObjectClass.isLeaf_of_boxing
    (boxings_cls (κ := κ) v p (hboxings ▸ List.mem_cons_self))
  obtain ⟨b, w₁, hmake, hat, hnew⟩ := h.createAccepted_cons hcs hcs.root hp (.inl rfl) rest
  rw [← hboxings] at hmake
  exact ⟨b, w₁, objectOf_of_created hplain.1 hplain.2 (.inl rfl) hmake hat, hat, hnew⟩

/-- An object of the class, or a plain value with a box or a string of the class. -/
theorem decides_objectOf (name : String) (hc : c ∈ cs) (hv : Borrowed w others v) :
    Decides (w.recalled.Convertible (.named name c) v) (Run.objectOf c v) w := by
  by_cases hnull : v = .null
  · subst hnull
    exact Run.decides_pure (.inl rfl)
  cases hobject : v.object? with
  | some a =>
      obtain ⟨tag, rfl⟩ := Value.eq_of_object? hobject
      have ha := hv a rfl
      obtain ⟨w₁, hretain, h₁, hcontinues⟩ := h.retain hcs ha
      refine .after hretain ((h₁.decides_memberOf hcs hc (hcontinues.proceeds.since.reachable
        ha)).congr ?_)
      rw [hcontinues.resembles.member a ha c hc]
      simp [Convertible, boxings, Value.object?]
  | none =>
      have hiff : w.recalled.Convertible (.named name c) v ↔
          ∃ p ∈ (boxings v : List (ObjectClass × Payload κ)), c = .root ∨ c = p.1 := by
        simp [Convertible, hnull, hobject]
      refine Decides.congr ?_ hiff
      rcases h.objectOf_plain hcs hc hobject hnull with ⟨p, hp, haccepted, b, w₁, hrun, -⟩ | hnone
      · exact .inl ⟨⟨p, hp, haccepted⟩, some b, w₁, hrun⟩
      · exact .inr hnone

end World.Ready

/-! ## Containers -/

namespace Run

/-- A new container takes the place of one with a mismatch. -/
def renew (t : RefType) (a : ObjId) (m : String) (rebuild : ObjId → Run κ ObjId) : Run κ Ref := do
  match ← releasing [a] (attempt (rebuild a)) with
  | .ok fresh => return some fresh
  | .error _ => fail (.typeMismatch t.typeName m)

theorem renew_of_ok {rebuild : ObjId → Run κ ObjId} {b : ObjId}
    (hrun : rebuild a w = (.ok b, w')) :
    renew t a m rebuild w = (.ok (some b), { w' with heap := w'.heap.release a }) := by
  rw [renew, run_bind_of_ok (releasing_of_ok (attempt_of_ok hrun))]
  rfl

theorem renew_of_error {rebuild : ObjId → Run κ ObjId} {cause : Error}
    (hrun : rebuild a w = (.error (.error cause), w')) :
    renew t a m rebuild w = (.error (.error (.typeMismatch t.typeName m)),
      { w' with heap := w'.heap.release a }) := by
  rw [renew, run_bind_of_ok (releasing_of_ok (attempt_of_error hrun))]
  rfl

/-- How the parts of a container are converted into a new one. -/
def rebuildAs : RefType → ObjId → Run κ ObjId
  | .named _ _ => pure
  | .array elem => rebuildArray (decodeRef elem)
  | .map key value => rebuildMap (decodeRef key) (decodeRef value)

theorem decodeRef_container (ht : t.IsContainer) (v : Value) :
    decodeRef t v = decodeContainer t v (rebuildAs t : ObjId → Run κ ObjId) := by
  cases t with
  | named name cls => exact ht.elim
  | array elem => rfl
  | map key value => rfl

/-- What is not of the class of the container is refused. -/
theorem decodeContainer_refused {rebuild : ObjId → Run κ ObjId} {w₂ : World κ} {first : Nat}
    (hobject : objectOf .root v w = (.ok (some a), w₁))
    (htouch : touch t.cls w₁ = (.ok first, w₂)) (hinstance : w₂.isInstance a t.cls = false) :
    decodeContainer t v rebuild w = (.error (.error (.typeMismatch t.cls.key (w₂.typeKey a))),
      { w₂ with heap := w₂.heap.release a }) := by
  rw [decodeContainer, run_bind_of_ok hobject]
  simp only
  rw [run_bind_of_ok (releasingOnFault_of_ok htouch), run_get_bind, hinstance]
  rfl

end Run

namespace World.Ready

variable (h : Ready P cs others held w) (hcs : Vocabulary cs)
include h hcs

/-- A container that passes is passed on with a reference more, and one that does not is renewed. -/
theorem decodeContainer_object (ht : t.Within (· ∈ cs)) (hcontainer : t.IsContainer)
    (ha : w.heap.Reachable others a) (hparts : w.Parts t a parts) (tag : ObjectTag)
    (rebuild : ObjId → Run κ ObjId) :
    ∃ w₁, Ready P cs others (a :: held) w₁ ∧ w.Continues cs others w₁ ∧
      Run.decodeContainer t (.object tag a) rebuild w =
        match w.recalled.mismatch? t (some a) with
        | none => (.ok (some a), w₁)
        | some m => Run.renew t a m rebuild w₁ := by
  obtain ⟨w₁, hretain, h₁, hcontinues₁⟩ := h.retain hcs ha
  have hobject : Run.objectOf .root (.object tag a) w = (.ok (some a), w₁) :=
    (run_bind_of_ok hretain).trans (Run.memberOf_of_isInstance (isInstance_root w₁ a))
  obtain ⟨first, w₂, htouch, h₂, hcontinues₂, -, hmember⟩ := h₁.touches hcs (ht.cls hcs.covers)
  have ha₁ := hcontinues₁.proceeds.since.reachable ha
  have hinstance : w₂.isInstance a t.cls = true := by
    rw [hmember a ha₁, hcontinues₁.resembles.member a ha _ (ht.cls hcs.covers),
      isInstance_recalled h.regular, h.regular.isMember_leaf hcontainer.isLeaf,
      (h.made a ha).index?_iff hcontainer]
    exact ⟨parts, hparts⟩
  have hall := hcontinues₁.trans hcontinues₂
  have hreach : w.Reaches others (some a) := by
    rintro x hx
    cases hx
    exact ha
  obtain ⟨w₃, hask, hfound⟩ := answering hcs ht h₂ (hall.reaches hreach)
  obtain ⟨h₃, hcontinues₃⟩ := h₂.quiet hcs (Run.quiet_askType t (some a))
    (Run.advances_askType hcs.covers ht (some a)) hask
  rw [hall.resembles.mismatch? ht hreach] at hfound
  refine ⟨w₃, h₃, hall.trans hcontinues₃, ?_⟩
  rw [Run.decodeContainer, run_bind_of_ok hobject]
  simp only
  rw [run_bind_of_ok (Run.releasingOnFault_of_ok htouch), run_get_bind, hinstance]
  simp only [Bool.not_true, Bool.false_eq_true, if_false]
  rw [run_bind_of_ok (Run.releasingOnFault_of_ok hask), run_get_bind, hfound]
  cases w.recalled.mismatch? t (some a) <;> rfl

/-- Any other object is refused. -/
theorem decodeContainer_other (ht : t.Within (· ∈ cs)) (hcontainer : t.IsContainer)
    (ha : w.heap.Reachable others a) (hother : ¬ ∃ parts, w.Parts t a parts) (tag : ObjectTag)
    (rebuild : ObjId → Run κ ObjId) :
    ∃ cause w', Run.decodeContainer t (.object tag a) rebuild w = (.error (.error cause), w') := by
  obtain ⟨w₁, hretain, h₁, hcontinues₁⟩ := h.retain hcs ha
  have hobject : Run.objectOf .root (.object tag a) w = (.ok (some a), w₁) :=
    (run_bind_of_ok hretain).trans (Run.memberOf_of_isInstance (isInstance_root w₁ a))
  obtain ⟨first, w₂, htouch, h₂, hcontinues₂, -, hmember⟩ := h₁.touches hcs (ht.cls hcs.covers)
  have ha₁ := hcontinues₁.proceeds.since.reachable ha
  have hinstance : w₂.isInstance a t.cls = false := by
    rw [Bool.eq_false_iff, hmember a ha₁,
      hcontinues₁.resembles.member a ha _ (ht.cls hcs.covers), isInstance_recalled h.regular, ne_eq,
      h.regular.isMember_leaf hcontainer.isLeaf, (h.made a ha).index?_iff hcontainer]
    exact hother
  exact ⟨_, _, Run.decodeContainer_refused hobject htouch hinstance⟩

/-- So are plain values. -/
theorem decodeContainer_plain (ht : t.Within (· ∈ cs)) (hcontainer : t.IsContainer)
    (hplain : v.object? = none) (hnull : v ≠ .null) (rebuild : ObjId → Run κ ObjId) :
    ∃ cause w', Run.decodeContainer t v rebuild w = (.error (.error cause), w') := by
  have hv : Borrowed w held v := by
    intro a ha
    cases hplain.symm.trans ha
  rcases h.objectOf_plain hcs hcs.root hplain hnull with
    ⟨p, hp, -, b, w₁, hobject, hat, -⟩ | ⟨-, cause, w₁, hobject⟩
  · obtain ⟨h₁, -⟩ := h.after hcs (Run.conserves_objectOf h.balanced hv)
      (Run.advances_objectOf hcs.covers hcs.root v) hobject
    obtain ⟨first, w₂, htouch, h₂, -, -, -⟩ := h₁.touches hcs (ht.cls hcs.covers)
    have hsince := (Run.quiet_touch t.cls).since w₁ [b]
    rw [htouch] at hsince
    have hinstance : w₂.isInstance b t.cls = false :=
      isInstance_of_key_ne h₂.regular (hat.since hsince (.of_mem List.mem_cons_self)).cls
        hcontainer.isLeaf.isFinal hcontainer.isLeaf.key_ne (hcontainer.key_ne (boxings_cls v p hp))
    exact ⟨_, _, Run.decodeContainer_refused hobject htouch hinstance⟩
  · exact ⟨cause, w₁, run_bind_of_error hobject⟩

end World.Ready

end ObjectRuntime
