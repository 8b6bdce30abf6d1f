import ObjectRuntime.Proofs.TypeTable.Layout
import Mathlib.Logic.Relation
set_option autoImplicit false

/-!
# Membership tests and the type hierarchy

`TypeTable.isInstance` answers most questions by comparing an index with a range.  Here its answers
are those of the hierarchy, `ReflTransGen t.Extends`, in every table that a run of registrations
reaches: `History` lists such runs, `Layout` and `Declared` are what each registration keeps, and
`isInstance_eq_derivedFrom` takes the short cuts of the test one by one.
-/

namespace ObjectRuntime

namespace TypeTable

open Relation (ReflTransGen)

variable {t t' : TypeTable} {i j first parentIndex : Nat} {e f : TypeInfo} {decl : TypeDecl}
  {ds : List (Nat × TypeDecl)} {c : ObjectClass}

/-! ## The hierarchy -/

/-- The type at `child` is registered, and its parent link leads to `parent`. -/
def Extends (t : TypeTable) (child parent : Nat) : Prop :=
  ∃ e, t.typeAt? child = some e ∧ e.parent = parent

namespace Layout

/-- Every parent is registered. -/
theorem parent_registered (h : Layout t) (he : t.typeAt? i = some e) :
    ∃ p, t.typeAt? e.parent = some p := by
  by_cases hi : i = rootIndex
  · subst hi
    obtain rfl := Option.some.inj (h.root.symm.trans he)
    exact ⟨_, h.root⟩
  · exact (h.parent he hi).2

/-- Parent links never lead up. -/
theorem le_of_extends (h : Layout t) (hext : t.Extends i j) : j ≤ i := by
  obtain ⟨e, he, rfl⟩ := hext
  by_cases hi : i = rootIndex
  · subst hi
    obtain rfl := Option.some.inj (h.root.symm.trans he)
    exact Nat.le_refl _
  · exact Nat.le_of_lt (h.parent he hi).1

/-- An ancestor has no greater index. -/
theorem le_of_descends (h : Layout t) (hdesc : ReflTransGen t.Extends i j) : j ≤ i := by
  induction hdesc with
  | refl => exact Nat.le_refl _
  | tail _ hext ih => exact Nat.le_trans (h.le_of_extends hext) ih

/-- The walk along the parent links finds exactly the ancestors, if it may take as many steps as the
index is high. -/
theorem climbs_iff (h : Layout t) (ancestor : Nat) :
    ∀ fuel child, child ≤ fuel →
      (t.climbs ancestor fuel child = true ↔ ReflTransGen t.Extends child ancestor) := by
  intro fuel
  induction fuel with
  | zero =>
      intro child hchild
      obtain rfl := Nat.le_zero.mp hchild
      simp only [climbs, beq_iff_eq]
      constructor
      · rintro rfl
        exact .refl
      · intro hdesc
        exact (Nat.le_zero.mp (h.le_of_descends hdesc)).symm
  | succ fuel ih =>
      intro child hchild
      simp only [climbs]
      by_cases habove : child > ancestor
      · rw [if_pos habove]
        cases he : t.typeAt? child with
        | none =>
            refine iff_of_false (by simp) (fun hdesc => ?_)
            cases hdesc.cases_head with
            | inl heq => exact absurd habove (heq ▸ Nat.lt_irrefl _)
            | inr hstep =>
                obtain ⟨_, ⟨e, he', _⟩, _⟩ := hstep
                simp [he] at he'
        | some e =>
            have hlt := (h.parent he (Nat.ne_zero_of_lt habove)).1
            rw [ih e.parent (by omega)]
            constructor
            · exact fun hdesc => .head ⟨e, he, rfl⟩ hdesc
            · intro hdesc
              cases hdesc.cases_head with
              | inl heq => exact absurd habove (heq ▸ Nat.lt_irrefl _)
              | inr hstep =>
                  obtain ⟨_, ⟨e', he', rfl⟩, htail⟩ := hstep
                  obtain rfl := Option.some.inj (he.symm.trans he')
                  exact htail
      · rw [if_neg habove, beq_iff_eq]
        constructor
        · rintro rfl
          exact .refl
        · intro hdesc
          exact Nat.le_antisymm (Nat.le_of_not_lt habove) (h.le_of_descends hdesc)

/-- `derivedFrom` is the hierarchy. -/
theorem derivedFrom_iff (h : Layout t) (child ancestor : Nat) :
    t.derivedFrom child ancestor = true ↔ ReflTransGen t.Extends child ancestor :=
  h.climbs_iff ancestor child child (Nat.le_refl _)

/-- Every registered type descends from the root. -/
theorem descends_root (h : Layout t) :
    ∀ i e, t.typeAt? i = some e → ReflTransGen t.Extends i rootIndex := by
  intro i
  induction i using Nat.strongRecOn with
  | ind i ih =>
      intro e he
      by_cases hi : i = rootIndex
      · exact hi ▸ .refl
      · obtain ⟨hlt, p, hp⟩ := h.parent he hi
        exact .head ⟨e, he, rfl⟩ (ih e.parent hlt p hp)

/-- What lies in the slots of a type descends from it. -/
theorem descends_of_slot (h : Layout t) (he : t.typeAt? i = some e) (hi : i ≠ rootIndex) :
    ∀ j f, t.typeAt? j = some f → i ≤ j → j < i + e.slots → ReflTransGen t.Extends j i := by
  intro j
  induction j using Nat.strongRecOn with
  | ind j ih =>
      intro f hf hij hji
      rcases Nat.eq_or_lt_of_le hij with rfl | hlt
      · exact .refl
      · -- the parent of `j` lies in the slots too, but before `j`
        have hparent := (h.nested he hf hi hlt hji).2
        obtain ⟨hbelow, p, hp⟩ := h.parent hf (Nat.ne_zero_of_lt hlt)
        exact .head ⟨f, hf, rfl⟩ (ih f.parent hbelow p hp hparent (Nat.lt_trans hbelow hji))

/-- All descendants of a type whose children may not overflow lie in its slots, and their children
may not overflow either. -/
theorem slot_of_descends (h : Layout t) (he : t.typeAt? i = some e) (hi : i ≠ rootIndex)
    (hover : e.slotsCanOverflow = false) :
    ∀ j f, t.typeAt? j = some f → ReflTransGen t.Extends j i →
      f.slotsCanOverflow = false ∧ j + f.slots ≤ i + e.slots := by
  intro j
  induction j using Nat.strongRecOn with
  | ind j ih =>
      intro f hf hdesc
      cases hdesc.cases_head with
      | inl heq =>
          subst heq
          obtain rfl := Option.some.inj (he.symm.trans hf)
          exact ⟨hover, Nat.le_refl _⟩
      | inr hstep =>
          obtain ⟨_, ⟨f', hf', rfl⟩, htail⟩ := hstep
          obtain rfl := Option.some.inj (hf.symm.trans hf')
          have hle := h.le_of_descends htail
          have hj : j ≠ rootIndex := by
            rintro rfl
            obtain rfl := Option.some.inj (h.root.symm.trans hf)
            exact hi (Nat.le_zero.mp hle)
          obtain ⟨hbelow, p, hp⟩ := h.parent hf hj
          obtain ⟨hpover, hpend⟩ := ih f.parent hbelow p hp htail
          obtain ⟨hfover, hlt⟩ := h.closed hf hj hp hpover
          have hparent : f.parent ≠ rootIndex := by
            intro hroot
            rw [hroot] at hle
            exact hi (Nat.le_zero.mp hle)
          have hend := (h.nested hp hf hparent hbelow hlt).1
          have hused := h.used hp hparent
          exact ⟨hfover, by omega⟩

end Layout

/-! ## Runs of registrations -/

/-- A registration that keeps the rules for claimed indices and final types: a claim names an index
below the first dynamic one, the root as parent and no slots for children, and nobody extends a
final type. -/
structure Admits (ds : List (Nat × TypeDecl)) (decl : TypeDecl) (parentIndex : Nat) : Prop where
  claims : ∀ index, decl.claimed = some index →
    index < firstDynamic ∧ parentIndex = rootIndex ∧ decl.childSlots = 0
  extensible : ∀ d, (parentIndex, d) ∈ ds → d.isFinal = false

/-- The declarations behind the entries, after `decl` has been given to `allocate`: a key that was
registered before keeps its own. -/
def declaredAfter (t : TypeTable) (decl : TypeDecl) (ds : List (Nat × TypeDecl)) :
    Except Fault Nat → List (Nat × TypeDecl)
  | .ok index => if t.index? decl.key = none then (index, decl) :: ds else ds
  | .error _ => ds

/-- The tables that runs of registrations reach, each with the declarations that made its entries.
A registration may fail, and classes may remember indices at any time. -/
inductive History : TypeTable → List (Nat × TypeDecl) → Prop
  | start : History .initial []
  | remember {t : TypeTable} {ds : List (Nat × TypeDecl)} (known : List (String × Nat))
      (run : History t ds) : History { t with known } ds
  | register {t t' : TypeTable} {ds : List (Nat × TypeDecl)} {decl : TypeDecl}
      {parentIndex : Nat} {answer : Except Fault Nat} (run : History t ds)
      (admits : Admits ds decl parentIndex)
      (step : t.allocate decl.key decl.claimed parentIndex decl.childSlots decl.slotsCanOverflow =
        (answer, t')) : History t' (declaredAfter t decl ds answer)

/-- The entries of the declared types say what was declared, and final types have no children. -/
def Declared (t : TypeTable) (ds : List (Nat × TypeDecl)) : Prop :=
  ∀ index decl, (index, decl) ∈ ds → index ≠ rootIndex ∧
    (∃ e, t.typeAt? index = some e ∧ e.slots = decl.childSlots + 1 ∧
      (e.slotsCanOverflow = true → decl.slotsCanOverflow = true)) ∧
    (decl.isFinal = true → ∀ j f, t.typeAt? j = some f → f.parent ≠ index)

/-- The new entry says what was declared, the old ones stay, and the new type has no final parent. -/
theorem Declared.registered {p : TypeInfo} (h : Declared t ds) (hlayout : Layout t)
    (admits : Admits ds decl p.index) (hp : t.typeAt? p.index = some p)
    (hplace : Placement t p (decl.childSlots + 1) decl.claimed t' i) :
    Declared (t'.put ⟨i, p.index, decl.childSlots + 1, 1,
      decl.slotsCanOverflow && p.slotsCanOverflow, decl.key⟩) ((i, decl) :: ds) := by
  obtain ⟨hlt, hfree, hnew⟩ :=
    hlayout.registered decl.key decl.slotsCanOverflow hp admits.claims hplace
  have hkept : ∀ {j f}, t.typeAt? j = some f →
      j ≠ i ∧ ∃ n, t'.typeAt? j = some { f with allocated := n } := by
    intro j f hf
    obtain ⟨n, hn⟩ := hplace.kept hp hf
    exact ⟨fun heq => by simp [heq, hfree] at hn, n, hn⟩
  have horigin : ∀ {j f}, (t'.put ⟨i, p.index, decl.childSlots + 1, 1,
      decl.slotsCanOverflow && p.slotsCanOverflow, decl.key⟩).typeAt? j = some f →
      f.parent = p.index ∨ ∃ f₀, t.typeAt? j = some f₀ ∧ f.parent = f₀.parent := by
    intro j f hf
    rw [typeAt?_put] at hf
    split at hf
    · cases hf
      exact .inl rfl
    · obtain ⟨f₀, n, hf₀, rfl⟩ := hplace.origin hp hf
      exact .inr ⟨f₀, hf₀, rfl⟩
  intro index d hmem
  rcases List.mem_cons.mp hmem with heq | hmem
  · obtain ⟨rfl, rfl⟩ := Prod.mk.inj heq
    refine ⟨fun hroot => (hkept hlayout.root).1 hroot.symm, ⟨_, typeAt?_put_self hlt, rfl, ?_⟩, ?_⟩
    · exact fun hflag => (Bool.and_eq_true_iff.mp hflag).1
    · rintro - j f hf rfl
      rcases horigin hf with hparent | ⟨f₀, hf₀, hparent⟩
      · exact (hkept hp).1 hparent.symm
      · obtain ⟨q, hq⟩ := hlayout.parent_registered hf₀
        exact (hkept hq).1 hparent.symm
  · obtain ⟨hroot, ⟨e, he, hslots, hflag⟩, hfinal⟩ := h index d hmem
    obtain ⟨hne, n, hn⟩ := hkept he
    refine ⟨hroot, ⟨_, (typeAt?_put_of_ne hne).trans hn, hslots, hflag⟩, ?_⟩
    intro hleaf j f hf
    rcases horigin hf with hparent | ⟨f₀, hf₀, hparent⟩
    · rintro rfl
      rw [hparent] at hmem
      simp [admits.extensible d hmem] at hleaf
    · exact hparent ▸ hfinal hleaf j f₀ hf₀

/-- One registration keeps the layout and what is known of the declared types. -/
theorem allocate_keeps {answer : Except Fault Nat} (hlayout : Layout t) (hdeclared : Declared t ds)
    (admits : Admits ds decl parentIndex)
    (step : t.allocate decl.key decl.claimed parentIndex decl.childSlots decl.slotsCanOverflow =
      (answer, t')) : Layout t' ∧ Declared t' (declaredAfter t decl ds answer) := by
  rcases allocate_inv step with ⟨index, hkey, rfl, rfl⟩ | ⟨-, rfl, fault, rfl⟩ |
      ⟨hkey, p, t₁, index, hp, rfl, hplace, hsettle⟩
  · exact ⟨hlayout, by simpa [declaredAfter, hkey] using hdeclared⟩
  · exact ⟨hlayout, hdeclared⟩
  · obtain ⟨hwithin, -, hnew⟩ :=
      hlayout.registered decl.key decl.slotsCanOverflow hp admits.claims hplace
    rcases settle_inv hsettle with ⟨-, rfl, rfl⟩ | ⟨hbeyond, -⟩
    · refine ⟨hnew, ?_⟩
      simp only [declaredAfter, hkey, if_true]
      exact hdeclared.registered hlayout admits hp hplace
    · exact absurd hwithin (Nat.not_lt.mpr hbeyond)

/-- Every run keeps the layout and what is known of the declared types. -/
theorem History.keeps (run : History t ds) : Layout t ∧ Declared t ds := by
  induction run with
  | start => exact ⟨.initial, fun _ _ hmem => nomatch hmem⟩
  | remember known _ ih =>
      obtain ⟨hlayout, hdeclared⟩ := ih
      exact ⟨⟨hlayout.root, hlayout.claimable, hlayout.indexed, hlayout.parent, hlayout.used,
        hlayout.static, hlayout.nested, hlayout.closed⟩, hdeclared⟩
  | register _ admits step ih => exact allocate_keeps ih.1 ih.2 admits step

/-! ## The membership test -/

/-- The class is the root, or was registered at `first` with its own constants. -/
def DeclaredAt (ds : List (Nat × TypeDecl)) (first : Nat) : ObjectClass → Prop
  | .root => first = rootIndex
  | .derived decl _ => (first, decl) ∈ ds

/-- The membership test in a class whose entry says what the class does. -/
theorem Layout.isInstance_iff {d : TypeInfo} (h : Layout t) (hfirst : first ≠ rootIndex)
    (hd : t.typeAt? first = some d) (hslots : d.slots = c.childSlots + 1)
    (hflag : d.slotsCanOverflow = true → c.slotsCanOverflow = true)
    (hfinal : c.isFinal = true → ∀ j f, t.typeAt? j = some f → f.parent ≠ first)
    (hi : t.typeAt? i = some e) :
    t.isInstance i first c = true ↔ ReflTransGen t.Extends i first := by
  rw [isInstance, if_neg hfirst]
  by_cases hleaf : c.isFinal = true
  · -- nobody has a final type as parent, so only the type itself descends from it
    rw [if_pos hleaf, beq_iff_eq]
    constructor
    · rintro rfl
      exact .refl
    · intro hdesc
      cases hdesc.cases_tail with
      | inl heq => exact heq.symm
      | inr hstep =>
          obtain ⟨j, -, f, hf, hparent⟩ := hstep
          exact absurd hparent (hfinal hleaf j f hf)
  rw [if_neg hleaf]
  by_cases hrange : i ≥ first ∧ i - first ≤ c.childSlots
  · -- the index lies in the slots of the class
    rw [if_pos hrange]
    exact iff_of_true rfl (h.descends_of_slot hd hfirst i e hi hrange.1 (by omega))
  rw [if_neg hrange]
  by_cases hout : (!c.slotsCanOverflow) = true ∨ i < first
  · -- a class that does not overflow has all its descendants in its slots, and none has a lesser
    -- index
    rw [if_pos hout]
    refine iff_of_false Bool.false_ne_true (fun hdesc => ?_)
    have hle := h.le_of_descends hdesc
    rcases hout with hover | hlt
    · have hclosed : d.slotsCanOverflow = false := by
        cases hover' : d.slotsCanOverflow with
        | false => rfl
        | true => simp [hflag hover'] at hover
      have hend := (h.slot_of_descends hd hfirst hclosed i e hi hdesc).2
      have hne : i ≠ rootIndex := by
        rintro rfl
        exact hfirst (Nat.le_zero.mp hle)
      have hused := h.used hi hne
      omega
    · omega
  · rw [if_neg hout, h.derivedFrom_iff]

/-- The membership test gives the answer of the hierarchy, whichever of its short cuts it takes. -/
theorem isInstance_eq_derivedFrom (run : History t ds) (hclass : DeclaredAt ds first c)
    (hi : t.typeAt? i = some e) :
    t.isInstance i first c = t.derivedFrom i first ∧
      (t.derivedFrom i first = true ↔ ReflTransGen t.Extends i first) := by
  obtain ⟨hlayout, hdeclared⟩ := run.keeps
  refine ⟨?_, hlayout.derivedFrom_iff i first⟩
  rw [Bool.eq_iff_iff, hlayout.derivedFrom_iff]
  cases c with
  | root =>
      obtain rfl : first = rootIndex := hclass
      simpa [isInstance] using hlayout.descends_root i e hi
  | derived decl base =>
      obtain ⟨hfirst, ⟨d, hd, hslots, hflag⟩, hfinal⟩ := hdeclared first decl hclass
      exact hlayout.isInstance_iff hfirst hd hslots hflag hfinal hi

/-- A run that registers a type at an index it claims, a type with two slots for children, and a
child in one of the slots. -/
theorem isInstance_in_slots :
    ∃ t ds, History t ds ∧ (8, ⟨"test.Shape", none, 2, false, false⟩) ∈ ds ∧
      t.isInstance 9 8 (.derived ⟨"test.Shape", none, 2, false, false⟩ .root) = t.derivedFrom 9 8 ∧
      (t.derivedFrom 9 8 = true ↔ ReflTransGen t.Extends 9 8) := by
  have hroot : Admits [] ⟨"test.Text", some 1, 0, true, false⟩ rootIndex :=
    ⟨fun _ h => by cases h; decide, by simp⟩
  have hshape : Admits [(1, ⟨"test.Text", some 1, 0, true, false⟩)]
      ⟨"test.Shape", none, 2, false, false⟩ rootIndex := ⟨by simp, by simp [rootIndex]⟩
  have hsquare : Admits [(8, ⟨"test.Shape", none, 2, false, false⟩),
      (1, ⟨"test.Text", some 1, 0, true, false⟩)] ⟨"test.Square", none, 0, true, true⟩ 8 :=
    ⟨by simp, by simp⟩
  have run := ((History.start.register hroot rfl).register hshape rfl).register hsquare rfl
  have hmem : (8, (⟨"test.Shape", none, 2, false, false⟩ : TypeDecl)) ∈
      [(9, ⟨"test.Square", none, 0, true, true⟩), (8, ⟨"test.Shape", none, 2, false, false⟩),
        (1, ⟨"test.Text", some 1, 0, true, false⟩)] := by simp
  exact ⟨_, _, run, hmem, isInstance_eq_derivedFrom run hmem rfl⟩

end TypeTable

end ObjectRuntime
