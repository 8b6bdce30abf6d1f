import ObjectRuntime.Proofs.TypeTable.Advancing
import ObjectRuntime.Proofs.TypeTable.Standing
set_option autoImplicit false

/-!
# The classes of a program in a table

A program asks for a fixed set of classes, its vocabulary.  A class that nobody has asked for yet
may be registered all the same, under its key.  Whether a type belongs to a class is therefore a
question about keys (`TypeTable.isMember`), and the answer for a registered type does not change
while classes of the vocabulary are looked up, provided that what is registered under their keys is
as they declare it.
-/

namespace ObjectRuntime

open Relation (ReflTransGen)

/-- The classes for which a program may ask: the built-in ones and others, with their bases.  They
claim only what they may, and no two of them have the same key. -/
structure ObjectClass.Vocabulary (cs : List ObjectClass) : Prop where
  builtins : ∀ c ∈ ObjectClass.builtins, c ∈ cs
  rightful : ∀ c ∈ cs, c.Rightful
  bases : ∀ c ∈ cs, c.base ∈ cs
  keyed : ∀ c ∈ cs, ∀ d ∈ cs, c.key = d.key → c = d

theorem ObjectClass.Vocabulary.root {cs : List ObjectClass} (h : Vocabulary cs) : .root ∈ cs :=
  h.bases .string (h.builtins .string (by decide))

/-- The built-in classes are the least vocabulary. -/
theorem ObjectClass.vocabulary_builtins : Vocabulary (.root :: ObjectClass.builtins) where
  builtins _ hc := List.mem_cons_of_mem _ hc
  rightful := List.forall_mem_cons.mpr ⟨trivial, fun _ hc => rightful_of_mem_builtins hc⟩
  bases := by decide +kernel
  keyed := by decide +kernel

namespace TypeTable

variable {t t' t'' : TypeTable} {c d : ObjectClass} {cs : List ObjectClass} {key : String}
  {i j first : Nat} {e : TypeInfo}

/-! ## What is registered -/

/-- What is registered under the key of the class has the slots and the parent that the class
declares. -/
def AsDeclared (t : TypeTable) (c : ObjectClass) : Prop :=
  c ≠ .root → ∀ i e, t.index? c.key = some i → t.typeAt? i = some e →
    e.slots = c.childSlots + 1 ∧ t.index? c.base.key = some e.parent

/-- Between two tables types have been added where there were none, and each of them is as one of
the classes declares. -/
structure Enlarged (cs : List ObjectClass) (t t' : TypeTable) : Prop where
  later : Later t t'
  added : ∀ key i, t'.index? key = some i → t.index? key = some i ∨
    t.typeAt? i = none ∧ ∃ c ∈ cs, c.key = key ∧ c ≠ .root ∧ ∃ e, t'.typeAt? i = some e ∧
      e.slots = c.childSlots + 1 ∧ t'.index? c.base.key = some e.parent

/-- A registration adds one type at most. -/
theorem Regular.added_of_allocate {claimed : Option Nat} {parentIndex childSlots : Nat}
    {overflow : Bool} {answer : Except Fault Nat} {key' : String} (h : Regular t)
    (hclaim : ∀ index, claimed = some index →
      index < firstDynamic ∧ parentIndex = rootIndex ∧ childSlots = 0)
    (step : t.allocate key claimed parentIndex childSlots overflow = (answer, t'))
    (hi : t'.index? key' = some i) :
    t.index? key' = some i ∨ t.typeAt? i = none ∧ key = key' ∧
      ∃ e, t'.typeAt? i = some e ∧ e.slots = childSlots + 1 ∧ e.parent = parentIndex := by
  rcases allocate_inv step with ⟨index, -, -, rfl⟩ | ⟨-, rfl, -⟩ |
      ⟨-, p, t₁, index, hp, rfl, hplace, hsettle⟩
  · exact .inl hi
  · exact .inl hi
  · have hkeys : ∀ key, t₁.index? key = t.index? key := fun key => by
      rw [index?, index?, hplace.names.1]
    rcases settle_inv hsettle with ⟨hwithin, -, rfl⟩ | ⟨-, rfl⟩
    · simp only [index?, put, lookup_cons_eq] at hi
      split at hi
      · rename_i hsame
        obtain rfl := Option.some.inj hi
        obtain ⟨-, hfree, -⟩ := h.layout.registered key overflow hp hclaim hplace
        have hnew : t.typeAt? index = none := by
          cases hold : t.typeAt? index with
          | none => rfl
          | some e =>
              obtain ⟨n, hn⟩ := hplace.kept hp hold
              cases hfree.symm.trans hn
        exact .inr ⟨hnew, hsame.symm, _, typeAt?_put_self hwithin, rfl, rfl⟩
      · exact .inl ((hkeys key').symm.trans hi)
    · exact .inl ((hkeys key').symm.trans hi)

namespace Enlarged

theorem refl (cs : List ObjectClass) (h : Regular t) : Enlarged cs t t :=
  ⟨.refl h, fun _ _ hi => .inl hi⟩

theorem trans (h : Enlarged cs t t') (h' : Enlarged cs t' t'') : Enlarged cs t t'' := by
  refine ⟨h.later.trans h'.later, fun key i hi => ?_⟩
  rcases h'.added key i hi with hi | ⟨hfree, hclass⟩
  · rcases h.added key i hi with hi | ⟨hfree, c, hc, hkey, hroot, e, he, hslots, hparent⟩
    · exact .inl hi
    · obtain ⟨n, hn⟩ := h'.later.types i e he
      exact .inr ⟨hfree, c, hc, hkey, hroot, _, hn, hslots, h'.later.keys _ _ hparent⟩
  · refine .inr ⟨?_, hclass⟩
    cases hold : t.typeAt? i with
    | none => rfl
    | some e =>
        obtain ⟨n, hn⟩ := h.later.types i e hold
        cases hfree.symm.trans hn

/-- A class is registered under its base. -/
theorem allocate {base : ObjectClass} {decl : TypeDecl} {parent : Nat} {answer : Except Fault Nat}
    (h : Regular t) (hc : .derived decl base ∈ cs)
    (hright : (ObjectClass.derived decl base).Rightful)
    (hbase : t.classIndex? base = some parent)
    (step : t.allocate decl.key decl.claimed parent decl.childSlots decl.slotsCanOverflow =
      (answer, t')) : Enlarged cs t t' := by
  have hclaim : ∀ index, decl.claimed = some index →
      index < firstDynamic ∧ parent = rootIndex ∧ decl.childSlots = 0 := by
    intro index hclaimed
    obtain ⟨hlt, rfl, hslots⟩ := hright.2 index hclaimed
    exact ⟨hlt, (Option.some.inj hbase).symm, hslots⟩
  have hlater := (h.allocate hclaim step).1
  refine ⟨hlater, fun key i hi => (h.added_of_allocate hclaim step hi).imp_right ?_⟩
  rintro ⟨hfree, hkey, e, he, hslots, rfl⟩
  exact ⟨hfree, _, hc, hkey, ObjectClass.noConfusion, e, he, hslots,
    hlater.keys _ _ (h.index?_classIndex hbase)⟩

/-- Looking a class up registers it, and before it its bases, as they declare it. -/
theorem touch (hcs : ObjectClass.Vocabulary cs) (h : Regular t) (hc : c ∈ cs) :
    Enlarged cs t (t.touch c).2 := by
  induction c generalizing t with
  | root => exact .refl cs h
  | derived decl base ih =>
      have hright := hcs.rightful _ hc
      have hlater := (h.touch hright).1
      have hmem : base ∈ cs := hcs.bases _ hc
      have hbase := ih h hmem
      cases hknown : t.known.lookup decl.key with
      | some index =>
          simp only [TypeTable.touch, hknown]
          exact .refl cs h
      | none =>
          have hindex := (h.touch (hcs.rightful base hmem)).2
          simp only [TypeTable.touch, hknown] at hlater ⊢
          rcases htouch : t.touch base with ⟨fault | parent, t₁⟩
          all_goals rw [htouch] at hlater hbase hindex
          · cases fault <;> exact hbase
          · simp only [registerUnder] at hlater ⊢
            rcases hstep : t₁.allocate decl.key decl.claimed parent decl.childSlots
                decl.slotsCanOverflow with ⟨answer, t₂⟩
            rw [hstep] at hlater
            have hadded := hbase.trans (.allocate hbase.later.regular hc hright
              (hindex parent rfl) hstep)
            rcases answer with (cause | cause) | index
            · exact hadded
            · exact hadded
            · exact ⟨hlater, hadded.added⟩

/-- Looking classes of the vocabulary up does nothing else to a table. -/
theorem of_advanced (hcs : ObjectClass.Vocabulary cs) (h : Regular t)
    (hadvanced : Advanced (· ∈ cs) t t') : Enlarged cs t t' := by
  apply hadvanced.induct
  · exact .refl cs h
  · exact fun c u hc ih => ih.trans (.touch hcs ih.later.regular hc)

end Enlarged

/-- What has been added is as declared, and so is what was there before. -/
theorem AsDeclared.enlarged (h : t.AsDeclared c) (hcs : ObjectClass.Vocabulary cs) (hc : c ∈ cs)
    (hregular : Regular t) (hlarger : Enlarged cs t t') : t'.AsDeclared c := by
  intro hroot i e hi he
  rcases hlarger.added _ i hi with hold | ⟨-, d, hd, hkey, -, f, hf, hslots, hparent⟩
  · obtain ⟨f, hf, -⟩ := hregular.keyed _ _ hold
    obtain ⟨n, hn⟩ := hlarger.later.types i f hf
    obtain rfl := Option.some.inj (hn.symm.trans he)
    obtain ⟨hslots, hparent⟩ := h hroot i f hold hf
    exact ⟨hslots, hlarger.later.keys _ _ hparent⟩
  · obtain rfl := hcs.keyed d hd c hc hkey
    obtain rfl := Option.some.inj (hf.symm.trans he)
    exact ⟨hslots, hparent⟩

/-! ## Membership by key -/

/-- The type at an index belongs to the class, whether or not the class has been looked up. -/
def isMember (t : TypeTable) (i : Nat) (c : ObjectClass) : Bool :=
  match t.index? c.key with
  | some first => t.isInstance i first c
  | none => false

theorem Regular.isMember_eq (h : Regular t) (hfirst : t.classIndex? c = some first) :
    t.isMember i c = t.isInstance i first c := by
  rw [isMember, h.index?_classIndex hfirst]

/-- A registered type has no new ancestors. -/
theorem Later.descends_back (h : Later t t') (hlayout : Layout t) (he : t.typeAt? i = some e)
    (hdesc : ReflTransGen t'.Extends i j) :
    ReflTransGen t.Extends i j ∧ ∃ f, t.typeAt? j = some f := by
  induction hdesc using ReflTransGen.head_induction_on generalizing e with
  | refl => exact ⟨.refl, e, he⟩
  | head hstep _ ih =>
      obtain ⟨f, hf, rfl⟩ := hstep
      obtain ⟨n, hn⟩ := h.types _ e he
      obtain rfl := Option.some.inj (hn.symm.trans hf)
      obtain ⟨p, hp⟩ := hlayout.parent_registered he
      obtain ⟨hrest, hend⟩ := ih hp
      exact ⟨.head ⟨e, he, rfl⟩ hrest, hend⟩

theorem Later.derivedFrom_eq (h : Later t t') (hlayout : Layout t) (he : t.typeAt? i = some e)
    (j : Nat) : t'.derivedFrom i j = t.derivedFrom i j := by
  rw [Bool.eq_iff_iff, h.regular.layout.derivedFrom_iff]
  refine ⟨fun hdesc => ?_, fun hdesc => ?_⟩
  · exact (hlayout.derivedFrom_iff i j).mpr (h.descends_back hlayout he hdesc).1
  · exact (h.regular.layout.derivedFrom_iff i j).mp (h.derivedFrom hdesc)

/-- A type that is registered does not come to belong to a class that is registered later. -/
theorem isInstance_of_free (hlater : Later t t') (hlayout : Layout t) (he : t.typeAt? i = some e)
    (hfree : t.typeAt? first = none) {f : TypeInfo} (hf : t'.typeAt? first = some f)
    (hslots : f.slots = c.childSlots + 1) : t'.isInstance i first c = false := by
  have hapart : ¬ ReflTransGen t'.Extends i first := fun hdesc => by
    obtain ⟨-, g, hg⟩ := hlater.descends_back hlayout he hdesc
    cases hfree.symm.trans hg
  have hroot : first ≠ rootIndex := by
    rintro rfl
    cases hfree.symm.trans hlayout.root
  have hne : i ≠ first := by
    rintro rfl
    cases hfree.symm.trans he
  obtain ⟨n, hi⟩ := hlater.types i e he
  have hrange : ¬ (i ≥ first ∧ i - first ≤ c.childSlots) := fun hin =>
    hapart (hlater.regular.layout.descends_of_slot hf hroot i _ hi hin.1 (by omega))
  have hderived : t'.derivedFrom i first = false := by
    rw [Bool.eq_false_iff]
    exact fun hdesc => hapart ((hlater.regular.layout.derivedFrom_iff i first).mp hdesc)
  simp only [isInstance, hroot, hrange, hderived, beq_eq_false_iff_ne.mpr hne, if_false, ite_self]

/-- Whether a registered type belongs to a class of the vocabulary is settled. -/
theorem Enlarged.isMember_eq (h : Enlarged cs t t') (hcs : ObjectClass.Vocabulary cs)
    (hregular : Regular t) (hc : c ∈ cs) (he : t.typeAt? i = some e) :
    t'.isMember i c = t.isMember i c := by
  cases hfirst : t.index? c.key with
  | some first =>
      simp only [isMember, hfirst, h.later.keys _ _ hfirst, isInstance,
        h.later.derivedFrom_eq hregular.layout he]
  | none =>
      rw [isMember, isMember, hfirst]
      cases hlater : t'.index? c.key with
      | none => rfl
      | some first =>
          rcases h.added _ first hlater with hold | ⟨hfree, d, hd, hkey, -, f, hf, hslots, -⟩
          · cases hfirst.symm.trans hold
          · obtain rfl := hcs.keyed d hd c hc hkey
            exact isInstance_of_free h.later hregular.layout he hfree hf hslots

/-! ## Tables that are equipped with a vocabulary -/

/-- The root is there without having been looked up. -/
theorem afterLookups_filter_root (t : TypeTable) (order : List ObjectClass) :
    t.afterLookups (order.filter (· ≠ .root)) = t.afterLookups order := by
  induction order generalizing t with
  | nil => rfl
  | cons c order ih =>
      cases c with
      | root => exact ih t
      | derived decl base => exact ih (t.touch (.derived decl base)).2

theorem Serves.cons_root (h : t.Serves cs) : t.Serves (.root :: cs) := by
  refine ⟨h.regular, fun order horder c hc => ?_⟩
  rcases List.mem_cons.mp hc with rfl | hc
  · exact ⟨rootIndex, rfl⟩
  · rw [← afterLookups_filter_root]
    refine h.offered _ (fun d hd => ?_) c hc
    obtain ⟨hd, hroot⟩ := List.mem_filter.mp hd
    exact (List.mem_cons.mp (horder d hd)).resolve_left (of_decide_eq_true hroot)

/-- Every class can be had, and what is registered is as declared. -/
structure Equipped (cs : List ObjectClass) (t : TypeTable) : Prop where
  serves : t.Serves cs
  declared : ∀ c ∈ cs, t.AsDeclared c

namespace Equipped

/-- Looking classes of the vocabulary up leaves a table equipped. -/
theorem advanced (h : Equipped cs t) (hcs : ObjectClass.Vocabulary cs)
    (hadvanced : Advanced (· ∈ cs) t t') : Equipped cs t' := by
  have hregular := h.serves.regular
  have hlarger := Enlarged.of_advanced hcs hregular hadvanced
  refine ⟨?_, fun c hc => (h.declared c hc).enlarged hcs hc hregular hlarger⟩
  apply hadvanced.induct (Q := fun _ u => u.Serves cs) h.serves
  intro c u hc hu
  obtain ⟨-, -, hserves⟩ := hu.touch hcs.rightful hc
  exact hserves

/-- The root alone is registered in a new table. -/
theorem initial (hcs : ObjectClass.Vocabulary cs) (hserves : TypeTable.initial.Serves cs) :
    Equipped cs TypeTable.initial := by
  refine ⟨hserves, fun c hc hroot i e hi he => ?_⟩
  obtain ⟨f, hf, hkey⟩ := Regular.initial.keyed _ _ hi
  rw [typeAt?_initial] at hf
  split at hf
  · obtain rfl := Option.some.inj hf
    exact absurd (hcs.keyed c hc .root hcs.root hkey.symm) hroot
  · cases hf

variable (h : Equipped cs t) (hcs : ObjectClass.Vocabulary cs)
include h hcs

/-- Classes of one index are the same. -/
theorem eq_of_index (hc : c ∈ cs) (hd : d ∈ cs) (hi : t.index? c.key = some i)
    (hi' : t.index? d.key = some i) : c = d := by
  obtain ⟨e, he, hkey⟩ := h.serves.regular.keyed _ _ hi
  obtain ⟨e', he', hkey'⟩ := h.serves.regular.keyed _ _ hi'
  obtain rfl := Option.some.inj (he.symm.trans he')
  exact hcs.keyed c hc d hd (hkey.symm.trans hkey')

/-- A class that is declared below the root descends from no other class. -/
theorem derivedFrom_iff (hd : d ∈ cs) (hroot : d ≠ .root) (hbase : d.base = .root) (hc : c ∈ cs)
    (hi : t.index? d.key = some i) (hfirst : t.index? c.key = some first) :
    t.derivedFrom i first = true ↔ c = .root ∨ c = d := by
  have hregular := h.serves.regular
  obtain ⟨e, he, -⟩ := hregular.keyed _ _ hi
  have hparent : e.parent = rootIndex := by
    have hindex := (h.declared d hd hroot i e hi he).2
    rw [hbase] at hindex
    exact Option.some.inj (hindex.symm.trans hregular.rooted)
  constructor
  · intro hdesc
    by_contra hother
    rw [not_or] at hother
    have hapart := hregular.layout.not_derivedFrom_of_child he hparent (j := first) ?_ ?_
    · cases hapart.symm.trans hdesc
    · rintro rfl
      exact hother.2 (h.eq_of_index hcs hc hd hfirst hi)
    · rintro rfl
      exact hother.1 (h.eq_of_index hcs hc hcs.root hfirst hregular.rooted)
  · rintro (rfl | rfl)
    · obtain rfl := Option.some.inj (hfirst.symm.trans hregular.rooted)
      exact (hregular.layout.derivedFrom_iff i _).mpr (hregular.layout.descends_root i e he)
    · obtain rfl := Option.some.inj (hfirst.symm.trans hi)
      exact (hregular.layout.derivedFrom_iff _ _).mpr .refl

/-- Nor does a type of such a class belong to another one. -/
theorem eq_of_isMember (hd : d ∈ cs) (hroot : d ≠ .root) (hbase : d.base = .root) (hc : c ∈ cs)
    (hi : t.index? d.key = some i) (hmember : t.isMember i c = true) : c = .root ∨ c = d := by
  have hregular := h.serves.regular
  unfold isMember at hmember
  split at hmember
  · rename_i first hfirst
    by_contra hother
    rw [not_or] at hother
    have hnotRoot : first ≠ rootIndex := by
      rintro rfl
      exact hother.1 (h.eq_of_index hcs hc hcs.root hfirst hregular.rooted)
    have hne : i ≠ first := by
      rintro rfl
      exact hother.2 (h.eq_of_index hcs hc hd hfirst hi)
    have hderived : t.derivedFrom i first = false := by
      rw [Bool.eq_false_iff, ne_eq, h.derivedFrom_iff hcs hd hroot hbase hc hi hfirst, not_or]
      exact hother
    have hrange : ¬ (i ≥ first ∧ i - first ≤ c.childSlots) := by
      rintro ⟨hge, hle⟩
      obtain ⟨e, he, -⟩ := hregular.keyed _ _ hi
      obtain ⟨f, hf, -⟩ := hregular.keyed _ _ hfirst
      have hslots := (h.declared c hc hother.1 first f hfirst hf).1
      have hdesc := hregular.layout.descends_of_slot hf hnotRoot i e he hge (by omega)
      cases hderived.symm.trans ((hregular.layout.derivedFrom_iff i first).mpr hdesc)
    simp only [isInstance, hnotRoot, hrange, hderived, beq_eq_false_iff_ne.mpr hne, if_false,
      ite_self, Bool.false_eq_true] at hmember
  · cases hmember

end Equipped

end TypeTable

end ObjectRuntime
