import ObjectRuntime.Proofs.Container.Elementwise
set_option autoImplicit false

/-!
# Conversions to container types

A conversion to the type of arrays or of maps succeeds exactly for nothing and for the containers of
that kind each part of which is converted to its type on its own.  A container whose parts all pass
the check is passed on; from any other one a new container is made, part by part, and the old one is
left as it was.
-/

namespace ObjectRuntime

open ObjectClass (Vocabulary)
open Run (Borrowed)
open World (Ready)
open Views (Made passAs)

variable {κ : Type} {P : κ → Prop} {w w' : World κ} {cs : List ObjectClass}
  {others held : List ObjId} {a : ObjId} {r : Ref} {v : Value} {t : RefType}
  {parts : List (RefType × Ref)}

namespace Views

/-- A downcast of the part to its type succeeds. -/
def PartPasses (w : World κ) (p : RefType × Ref) : Prop :=
  ∃ w₁, Run.downcast p.1 p.2 w = (.ok p.2, w₁)

/-- A conversion of the part to its type succeeds. -/
def PartConverts (w : World κ) (p : RefType × Ref) : Prop :=
  ∃ r w₁, passAs p.1 p.2 w = (.ok r, w₁)

variable (h : Ready P cs others held w) (hcs : Vocabulary cs)
include h hcs

theorem partPasses_iff {p : RefType × Ref} (ht : p.1.Within (· ∈ cs)) (hr : w.Reaches others p.2) :
    PartPasses w p ↔ w.recalled.mismatch? p.1 p.2 = none := h.downcast_iff hcs ht hr

theorem partConverts_iff {p : RefType × Ref} (ht : p.1.Within (· ∈ cs))
    (hr : w.Reaches others p.2) : PartConverts w p ↔ w.recalled.PartConvertible p :=
  (h.decides_passAs hcs (World.decisive hcs ht) ht hr).ok_iff

/-- A container passes the check if all of its parts do. -/
theorem mismatch?_eq_none_iff (ht : t.Within (· ∈ cs)) (ha : w.heap.Reachable others a)
    (hparts : w.Parts t a parts) :
    w.recalled.mismatch? t (some a) = none ↔ ∀ p ∈ parts, PartPasses w p := by
  have hrecalled : w.recalled.Parts t a parts := hparts.congr rfl
  rw [hrecalled.passes_iff]
  exact forall₂_congr fun p hp =>
    (partPasses_iff h hcs (hparts.within ht p hp) (hparts.reaches ha p hp)).symm

/-- A conversion to a container type succeeds if there is nothing to convert, or a container all of
whose parts are converted. -/
theorem decodeRef_succeeds_iff (ht : t.Within (· ∈ cs)) (hcontainer : t.IsContainer)
    (hv : Borrowed w others v) :
    (∃ r w', Run.decodeRef t v w = (.ok r, w')) ↔
      v = .null ∨ ∃ a parts, v.object? = some a ∧ w.Parts t a parts ∧
        ∀ p ∈ parts, PartConverts w p := by
  rw [(World.decisive hcs ht h hv).ok_iff, World.convertible_container hcontainer]
  refine or_congr_right (exists_congr fun a => exists_congr fun parts =>
    and_congr_right fun ha => ?_)
  have hsame : w.recalled.Parts t a parts ↔ w.Parts t a parts :=
    ⟨fun hparts => hparts.congr rfl, fun hparts => hparts.congr rfl⟩
  rw [hsame]
  refine and_congr_right fun hparts => forall₂_congr fun p hp => ?_
  exact (partConverts_iff h hcs (hparts.within ht p hp)
    (hparts.reaches (hv a ha) p hp)).symm

/-- A conversion to a container type is a conversion of the parts. -/
theorem decodeRef_partwise (ht : t.Within (· ∈ cs)) (hcontainer : t.IsContainer)
    (hv : Borrowed w others v) :
    ((∃ r w', Run.decodeRef t v w = (.ok r, w')) ↔
      v = .null ∨ ∃ a parts, v.object? = some a ∧ w.Parts t a parts ∧
        ∀ p ∈ parts, PartConverts w p) ∧
    ∀ r w', Run.decodeRef t v w = (.ok r, w') →
      Ready P cs others (r.toList ++ held) w' ∧ w.Proceeds others w' ∧
      ((v = .null ∧ r = none) ∨
        ∃ a parts, v.object? = some a ∧ w.Parts t a parts ∧ w'.Parts t a parts ∧
          (((∀ p ∈ parts, PartPasses w p) ∧ r = some a) ∨
            (¬ (∀ p ∈ parts, PartPasses w p) ∧ ∃ b parts', r = some b ∧
              w.heap.get? b = none ∧ w'.OfClass b t.cls ∧ w'.Parts t b parts' ∧
              List.Forall₂ (fun p p' => p'.1 = p.1 ∧ Made w others p.1 p.2 p'.2 w')
                parts parts'))) := by
  refine ⟨decodeRef_succeeds_iff h hcs ht hcontainer hv, fun r w' hrun => ?_⟩
  have hheld : Borrowed w held v := fun a ha => h.reachable (hv a ha)
  obtain ⟨h', hcontinues⟩ := h.after hcs (Run.converts_decodeRef t h.balanced hheld)
    (Run.advances_decodeRef hcs.covers ht v) hrun
  refine ⟨h', hcontinues.proceeds, ?_⟩
  rcases h.container_inv hcs ht hcontainer hv hrun with
    hnull | ⟨a, parts, w₁, hobject, hparts, h₁, hcontinues₁, hresult⟩
  · exact .inl hnull
  have ha := hv a hobject
  refine .inr ⟨a, parts, hobject, hparts, hparts.congr (hcontinues.payload? ha), ?_⟩
  rw [← mismatch?_eq_none_iff h hcs ht ha hparts]
  refine hresult.imp (And.imp_right And.left) (And.imp_right ?_)
  rintro ⟨b, w₂, hrebuild, rfl, rfl⟩
  obtain ⟨hrebuilt, h₂, -⟩ := h₁.rebuilt_as hcs ht (hcontinues₁.proceeds.since.reachable ha)
    (hparts.congr (hcontinues₁.payload? ha)) hrebuild
  -- the reference that the conversion has taken to the old container is given up
  have hboth : w₂.Balanced P ([a] ++ (b :: held)) := h₂.balanced.perm (.swap _ _ _)
  obtain ⟨hreleased, -⟩ := Run.proceeds_releases h₂.regular hboth
  obtain ⟨⟨hnew, -⟩, hcls, parts', hparts', hall⟩ :=
    (hrebuilt.earlier hcontinues₁.proceeds).later hreleased List.mem_cons_self
  refine ⟨b, parts', rfl, ?_, hcls, hparts', hall⟩
  cases hget : w.heap.get? b with
  | none => rfl
  | some o => exact absurd (Heap.lt_size_of_get? hget) (Nat.not_lt.mpr hnew)

omit h hcs
open ObjectClass (vocabulary_builtins)

/-- A world with a string. -/
def textAlone : World Unit := (Run.create .string (.text "x") .initial).2

/-- A world with a boxed integer besides. -/
def textAndInt : World Unit := (Run.create .boxInt (.boxInt 1) textAlone).2

theorem ready_textAndInt :
    Ready (fun _ => True) (.root :: ObjectClass.builtins) [⟨1⟩, ⟨0⟩] [⟨1⟩, ⟨0⟩] textAndInt := by
  have hstart : Ready (fun _ => True) (.root :: ObjectClass.builtins) [] []
      (World.initial : World Unit) :=
    .initial vocabulary_builtins (.cons_root TypeTable.Roomy.initial.serves)
  have htext : World.initial.Fills .string (.text "x" : Payload Unit) :=
    World.fills_plain _ (by decide) (by decide) (by simp) (by simp)
  have hint : textAlone.Fills .boxInt (.boxInt 1) :=
    World.fills_plain _ (by decide) (by decide) (by simp) (by simp)
  have halone : Ready (fun _ => True) (.root :: ObjectClass.builtins) [⟨0⟩] [⟨0⟩] textAlone :=
    hstart.after_create vocabulary_builtins (by decide) (by trivial) htext (by decide +kernel)
  exact halone.after_create vocabulary_builtins (by decide) (by trivial) hint (by decide +kernel)

/-- A map from the string to the boxed integer. -/
def intByText : World Unit := (Run.create .map (.map [(some ⟨0⟩, some ⟨1⟩)]) textAndInt).2

theorem ready_intByText :
    Ready (fun _ => True) (.root :: ObjectClass.builtins) [⟨2⟩] [⟨2⟩] intByText := by
  have hperm : List.Perm [⟨0⟩, ⟨1⟩] [(⟨1⟩ : ObjId), ⟨0⟩] := .swap _ _ _
  have hheld : Ready (fun _ => True) (.root :: ObjectClass.builtins) [⟨0⟩, ⟨1⟩] [⟨0⟩, ⟨1⟩]
      textAndInt := (ready_textAndInt.perm hperm).mono fun x hx => hperm.mem_iff.mp hx
  have hfills : textAndInt.Fills .map (.map [(some ⟨0⟩, some ⟨1⟩)]) :=
    World.fills_map (List.pairwise_singleton _ _)
  exact Ready.after_create hheld vocabulary_builtins (by decide) (by rfl) hfills (by decide +kernel)

/-- The key and the value can be converted to those of a map from strings to floating point numbers,
and the value is not of that type as it stands. -/
theorem intByText_facts :
    intByText.Parts (.map .string .boxFloat) ⟨2⟩ [(.string, some ⟨0⟩), (.boxFloat, some ⟨1⟩)] ∧
      PartConverts intByText (.string, some ⟨0⟩) ∧
      PartConverts intByText (.boxFloat, some ⟨1⟩) ∧
      ¬ PartPasses intByText (.boxFloat, some ⟨1⟩) := by
  have hcontent : intByText.payload? ⟨2⟩ = some (.map [(some ⟨0⟩, some ⟨1⟩)]) := rfl
  have hkey : (passAs .string (some ⟨0⟩) intByText).1.toOption = some (some ⟨0⟩) := by
    decide +kernel
  have hvalue : (passAs .boxFloat (some ⟨1⟩) intByText).1.toOption = some (some ⟨3⟩) := by
    decide +kernel
  refine ⟨.map hcontent, ⟨_, run_of_toOption hkey⟩, ⟨_, run_of_toOption hvalue⟩, ?_⟩
  rintro ⟨w₁, hpasses⟩
  have hresult : (Run.downcast .boxFloat (some ⟨1⟩) intByText).1.toOption = none := by
    decide +kernel
  rw [hpasses] at hresult
  cases hresult

/-- The integer becomes a floating point number in a new map. -/
theorem decodeRef_partwise_intByText :
    ∃ b w' k x, Run.decodeRef (.map .string .boxFloat) (.object .object ⟨2⟩) intByText =
        (.ok (some b), w') ∧ intByText.heap.get? b = none ∧
      w'.payload? b = some (.map [(k, x)]) ∧
      Made intByText [⟨2⟩] .string (some ⟨0⟩) k w' ∧
      Made intByText [⟨2⟩] .boxFloat (some ⟨1⟩) x w' := by
  have hv : Borrowed intByText [⟨2⟩] (.object .object ⟨2⟩) := by
    rintro a ⟨⟩
    exact .of_mem List.mem_cons_self
  have hwithin : (RefType.map .string .boxFloat).Within (· ∈ .root :: ObjectClass.builtins) :=
    ⟨show ObjectClass.string ∈ _ by decide, show ObjectClass.boxFloat ∈ _ by decide⟩
  obtain ⟨hparts, hkey, hvalue, hfails⟩ := intByText_facts
  obtain ⟨hsucceeds, hgives⟩ := decodeRef_partwise ready_intByText vocabulary_builtins hwithin
    (t := .map .string .boxFloat) trivial hv
  obtain ⟨r, w', hrun⟩ := hsucceeds.mpr (.inr ⟨_, _, rfl, hparts, List.forall_mem_cons.mpr
    ⟨hkey, List.forall_mem_singleton.mpr hvalue⟩⟩)
  obtain ⟨-, -, ⟨hnull, -⟩ | ⟨a, parts, ha, hparts', -, hresult⟩⟩ := hgives r w' hrun
  · cases hnull
  cases ha
  obtain rfl := hparts.unique hparts'
  obtain ⟨hpasses, -⟩ | ⟨-, b, parts', rfl, hnew, -, hnewParts, hall⟩ := hresult
  · exact absurd (hpasses _ (List.mem_cons_of_mem _ List.mem_cons_self)) hfails
  obtain ⟨entries, hcontent, rfl⟩ := World.parts_map_iff.mp hnewParts
  cases entries with
  | nil => cases hall
  | cons e rest =>
      obtain ⟨⟨-, hmadeKey⟩, hall⟩ := List.forall₂_cons.mp hall
      obtain ⟨⟨-, hmadeValue⟩, hrest⟩ := List.forall₂_cons.mp hall
      cases rest with
      | nil => exact ⟨b, w', e.1, e.2, hrun, hnew, hcontent, hmadeKey, hmadeValue⟩
      | cons => cases hrest

end Views

end ObjectRuntime
