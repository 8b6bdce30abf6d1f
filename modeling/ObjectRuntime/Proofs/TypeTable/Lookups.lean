import ObjectRuntime.Object.Class
import ObjectRuntime.Proofs.Lists
import ObjectRuntime.Proofs.TypeTable.Layout
set_option autoImplicit false

/-!
# Looking classes up

A class that is looked up is registered if that has not been done.  `Regular` is what holds of every
table in which classes claim only indices they may claim, and `Later` says that all that was known
before a lookup is known after it.
-/

namespace ObjectRuntime

/-- The class and its base classes claim only indices that types may claim: directly below the root
and without slots for children. -/
def ObjectClass.Rightful : ObjectClass → Prop
  | .root => True
  | .derived decl base => base.Rightful ∧ ∀ index, decl.claimed = some index →
      index < TypeTable.firstDynamic ∧ base = .root ∧ decl.childSlots = 0

theorem ObjectClass.rightful_of_mem_builtins {c : ObjectClass} (h : c ∈ ObjectClass.builtins) :
    c.Rightful := by
  simp only [ObjectClass.builtins, List.mem_cons, List.not_mem_nil, or_false] at h
  rcases h with rfl | rfl | rfl | rfl | rfl | rfl | rfl | rfl | rfl | rfl
  all_goals exact ⟨trivial, fun index hclaim => by cases hclaim <;> decide⟩

namespace TypeTable

variable {t t' t'' : TypeTable} {i index first : Nat} {c : ObjectClass} {cs : List ObjectClass}
  {key : String}

/-- The entries lie as they should, every key leads to an entry with this key, and a class that has
been looked up has the index of its key. -/
structure Regular (t : TypeTable) : Prop where
  layout : Layout t
  keyed : ∀ key i, t.index? key = some i → ∃ e, t.typeAt? i = some e ∧ e.key = key
  listed : ∀ key i, t.known.lookup key = some i → t.index? key = some i
  rooted : t.index? ObjectClass.rootKey = some rootIndex

/-- What is registered or looked up in `t` is so in `t'`. -/
structure Later (t t' : TypeTable) : Prop where
  regular : Regular t'
  types : ∀ i e, t.typeAt? i = some e → ∃ n, t'.typeAt? i = some { e with allocated := n }
  keys : ∀ key i, t.index? key = some i → t'.index? key = some i
  known : ∀ key i, t.known.lookup key = some i → t'.known.lookup key = some i

theorem Later.refl (h : Regular t) : Later t t :=
  ⟨h, fun _ e he => ⟨e.allocated, he⟩, fun _ _ hi => hi, fun _ _ hi => hi⟩

theorem Later.trans (h : Later t t') (h' : Later t' t'') : Later t t'' := by
  refine ⟨h'.regular, fun i e he => ?_, fun key i hi => h'.keys key i (h.keys key i hi),
    fun key i hi => h'.known key i (h.known key i hi)⟩
  obtain ⟨n, hn⟩ := h.types i e he
  obtain ⟨m, hm⟩ := h'.types i _ hn
  exact ⟨m, hm⟩

theorem Regular.initial : Regular TypeTable.initial := by
  refine ⟨.initial, fun key i hi => ?_, fun key i hi => (nomatch hi), rfl⟩
  have hmem : (key, i) ∈ [(ObjectClass.rootKey, rootIndex)] := by
    obtain ⟨before, after, heq, -⟩ := List.lookup_eq_some_iff.mp hi
    rw [show TypeTable.initial.keys = [(ObjectClass.rootKey, rootIndex)] from rfl] at heq
    simp [heq]
  obtain ⟨rfl, rfl⟩ := Prod.mk.inj (List.mem_singleton.mp hmem)
  exact ⟨_, Layout.initial.root, rfl⟩

/-! ## Registering -/

/-- Making a place for a type touches neither keys nor lookups. -/
theorem Placement.names {p : TypeInfo} {slots : Nat} {claimed : Option Nat}
    (h : Placement t p slots claimed t' i) : t'.keys = t.keys ∧ t'.known = t.known := by
  cases h with
  | claimed => exact ⟨rfl, rfl⟩
  | reserved => exact ⟨rfl, rfl⟩
  | appended => exact ⟨rfl, rfl⟩

/-- A registration keeps what is registered, and its key leads to the index it gives. -/
theorem Regular.allocate {claimed : Option Nat} {parentIndex childSlots : Nat} {overflow : Bool}
    {answer : Except Fault Nat} (h : Regular t)
    (hclaim : ∀ index, claimed = some index →
      index < firstDynamic ∧ parentIndex = rootIndex ∧ childSlots = 0)
    (step : t.allocate key claimed parentIndex childSlots overflow = (answer, t')) :
    Later t t' ∧ ∀ index, answer = .ok index → t'.index? key = some index := by
  rcases allocate_inv step with ⟨index, hkey, rfl, rfl⟩ | ⟨-, rfl, fault, rfl⟩ |
      ⟨hkey, p, t₁, index, hp, rfl, hplace, hsettle⟩
  · exact ⟨.refl h, fun i hi => by cases hi; exact hkey⟩
  · exact ⟨.refl h, fun i hi => nomatch hi⟩
  · obtain ⟨hwithin, hfree, hnew⟩ := h.layout.registered key overflow hp hclaim hplace
    obtain ⟨hkeys, hknown⟩ := hplace.names
    obtain ⟨new, hentry⟩ : ∃ new : TypeInfo, new =
        ⟨index, p.index, childSlots + 1, 1, overflow && p.slotsCanOverflow, key⟩ := ⟨_, rfl⟩
    have hindex : new.index = index := by rw [hentry]
    have hnewKey : new.key = key := by rw [hentry]
    rw [← hentry] at hnew hsettle
    rcases settle_inv hsettle with ⟨-, rfl, rfl⟩ | ⟨hbeyond, -⟩
    · have htypes : ∀ i e, t.typeAt? i = some e →
          ∃ n, (t₁.put new).typeAt? i = some { e with allocated := n } := by
        intro i e he
        obtain ⟨n, hn⟩ := hplace.kept hp he
        have hne : i ≠ new.index := fun heq => by simp [heq, hindex, hfree] at hn
        exact ⟨n, (typeAt?_put_of_ne hne).trans hn⟩
      have hlookup : ∀ key', (t₁.put new).index? key' =
          if key' = key then some index else t.index? key' := by
        intro key'
        simp only [index?, put, lookup_cons_eq, hkeys, hnewKey, hindex]
      have hold : ∀ key' i, t.index? key' = some i → (t₁.put new).index? key' = some i := by
        intro key' i hi
        rw [hlookup, if_neg (fun heq => by simp [heq, hkey] at hi)]
        exact hi
      refine ⟨⟨⟨hnew, fun key' i hi => ?_, fun key' i hi => ?_, hold _ _ h.rooted⟩, htypes, hold, ?_⟩,
        ?_⟩
      · rw [hlookup] at hi
        split at hi
        · rename_i hk
          cases hi
          exact ⟨new, hindex ▸ typeAt?_put_self (hindex.symm ▸ hwithin), hnewKey.trans hk.symm⟩
        · obtain ⟨e, he, hek⟩ := h.keyed key' i hi
          obtain ⟨n, hn⟩ := htypes i e he
          exact ⟨_, hn, hek⟩
      · exact hold key' i (h.listed key' i (hknown ▸ hi))
      · exact fun key' i hi => hknown.symm ▸ hi
      · intro i hi
        cases hi
        rw [hlookup, if_pos rfl, hindex]
    · exact absurd hwithin (Nat.not_lt.mpr (hindex ▸ hbeyond))

/-- The index of a class that is looked up is known from then on, and nothing is forgotten. -/
theorem Regular.touch (h : Regular t) (hc : c.Rightful) :
    Later t (t.touch c).2 ∧
      ∀ index, (t.touch c).1 = .ok index → (t.touch c).2.classIndex? c = some index := by
  induction c generalizing t with
  | root => exact ⟨.refl h, fun index hi => by cases hi; rfl⟩
  | derived decl base ih =>
      obtain ⟨hbase, hclaims⟩ := hc
      cases hknown : t.known.lookup decl.key with
      | some index =>
          simp only [TypeTable.touch, hknown]
          exact ⟨.refl h, fun i hi => by cases hi; exact hknown⟩
      | none =>
          obtain ⟨hlater, hindex⟩ := ih h hbase
          simp only [TypeTable.touch, hknown]
          rcases htouch : t.touch base with ⟨fault | parent, t₁⟩
          · rw [htouch] at hlater
            simp only [registerUnder]
            cases fault with
            | error => exact ⟨hlater, fun i hi => nomatch hi⟩
            | panic => exact ⟨hlater, fun i hi => nomatch hi⟩
          · rw [htouch] at hlater hindex
            rcases hstep : t₁.allocate decl.key decl.claimed parent decl.childSlots
                decl.slotsCanOverflow with ⟨answer, t₂⟩
            have hclaim : ∀ index, decl.claimed = some index →
                index < firstDynamic ∧ parent = rootIndex ∧ decl.childSlots = 0 := by
              intro index hclaimed
              obtain ⟨hlt, rfl, hslots⟩ := hclaims index hclaimed
              exact ⟨hlt, by cases htouch; rfl, hslots⟩
            obtain ⟨hstepped, hkey⟩ := hlater.regular.allocate hclaim hstep
            have hafter := hlater.trans hstepped
            simp only [registerUnder, hstep]
            cases answer with
            | ok index =>
                refine ⟨⟨⟨?_, hafter.regular.keyed, ?_, hafter.regular.rooted⟩, hafter.types,
                  hafter.keys, ?_⟩, ?_⟩
                · have hlayout := hafter.regular.layout
                  exact ⟨hlayout.root, hlayout.claimable, hlayout.indexed, hlayout.parent,
                    hlayout.used, hlayout.static, hlayout.nested, hlayout.closed⟩
                · intro key i hi
                  rw [lookup_cons_eq] at hi
                  split at hi
                  · rename_i hk
                    cases hi
                    exact hk ▸ hkey index rfl
                  · exact hafter.regular.listed key i hi
                · intro key i hi
                  rw [lookup_cons_eq, if_neg (fun hk => by simp [hk, hknown] at hi)]
                  exact hafter.known key i hi
                · intro i hi
                  cases hi
                  simp [classIndex?]
            | error fault =>
                cases fault with
                | error => exact ⟨hafter, fun i hi => nomatch hi⟩
                | panic => exact ⟨hafter, fun i hi => nomatch hi⟩

/-- Looking one class up after another keeps a table regular. -/
theorem Regular.touchAll (h : Regular t) (hcs : ∀ c ∈ cs, c.Rightful) :
    Regular (cs.foldl (fun t c => (t.touch c).2) t) := by
  induction cs generalizing t with
  | nil => exact h
  | cons c cs ih =>
      obtain ⟨hc, hcs⟩ := List.forall_mem_cons.mp hcs
      exact ih (h.touch hc).1.regular hcs

/-! ## Lookups of any table -/

/-- A registration looks no class up. -/
theorem known_allocate (t : TypeTable) (key : String) (claimed : Option Nat)
    (parentIndex childSlots : Nat) (overflow : Bool) :
    (t.allocate key claimed parentIndex childSlots overflow).2.known = t.known := by
  rcases hstep : t.allocate key claimed parentIndex childSlots overflow with ⟨answer, t'⟩
  rcases allocate_inv hstep with ⟨index, -, -, rfl⟩ | ⟨-, rfl, -⟩ |
      ⟨-, p, t₁, index, -, -, hplace, hsettle⟩
  · rfl
  · rfl
  · rcases settle_inv hsettle with ⟨-, -, rfl⟩ | ⟨-, rfl⟩
    · exact hplace.names.2
    · exact hplace.names.2

/-- Looking a class up forgets no other, and remembers this one if it is found. -/
theorem known_touch (t : TypeTable) (c : ObjectClass) :
    (∀ key i, t.known.lookup key = some i → (t.touch c).2.known.lookup key = some i) ∧
      ∀ i, (t.touch c).1 = .ok i → (t.touch c).2.classIndex? c = some i := by
  induction c generalizing t with
  | root => exact ⟨fun _ _ hi => hi, fun i hi => by cases hi; rfl⟩
  | derived decl base ih =>
      cases hknown : t.known.lookup decl.key with
      | some index =>
          simp only [touch, hknown]
          exact ⟨fun _ _ hi => hi, fun i hi => by cases hi; exact hknown⟩
      | none =>
          obtain ⟨hkeeps, -⟩ := ih t
          have hunder : (registerUnder decl (t.touch base)).2.known = (t.touch base).2.known := by
            rcases t.touch base with ⟨fault | parent, t₁⟩
            · rfl
            · exact known_allocate _ _ _ _ _ _
          simp only [touch, hknown]
          rcases hreg : registerUnder decl (t.touch base) with ⟨fault | index, t₂⟩
          all_goals rw [hreg] at hunder
          · refine ⟨fun key i hi => ?_, fun i hi => ?_⟩
            · cases fault <;> exact (congrArg (List.lookup key) hunder).trans (hkeeps key i hi)
            · cases fault <;> cases hi
          · refine ⟨fun key i hi => ?_, fun i hi => ?_⟩
            · rw [lookup_cons_eq, if_neg (fun hkey => by simp [hkey, hknown] at hi)]
              exact (congrArg (List.lookup key) hunder).trans (hkeeps key i hi)
            · cases hi
              simp [classIndex?]

theorem classIndex?_touch {c' : ObjectClass} (h : t.classIndex? c = some i) :
    (t.touch c').2.classIndex? c = some i := by
  cases c with
  | root => exact h
  | derived decl base => exact (known_touch t c').1 _ _ h

/-! ## What is known later -/

theorem touch_of_classIndex? (h : t.classIndex? c = some first) : t.touch c = (.ok first, t) := by
  cases c with
  | root =>
      cases h
      rfl
  | derived decl base =>
      have hknown : t.known.lookup decl.key = some first := h
      simp only [touch, hknown]

/-- A class that has been looked up is registered under its key. -/
theorem Regular.typeAt?_classIndex (h : Regular t) (hc : t.classIndex? c = some first) :
    ∃ e, t.typeAt? first = some e ∧ e.key = c.key := by
  cases c with
  | root =>
      cases hc
      exact ⟨_, h.layout.root, rfl⟩
  | derived decl base => exact h.keyed _ _ (h.listed _ _ hc)

/-- The key of a class leads to its index. -/
theorem Regular.index?_classIndex (h : Regular t) (hc : t.classIndex? c = some first) :
    t.index? c.key = some first := by
  cases c with
  | root =>
      cases hc
      exact h.rooted
  | derived decl base => exact h.listed _ _ hc

theorem Regular.showKey_classIndex (h : Regular t) (hc : t.classIndex? c = some first) :
    t.showKey first = c.key := by
  obtain ⟨e, he, hkey⟩ := h.typeAt?_classIndex hc
  simp [showKey, he, hkey]

/-- Classes of the same index have the same key. -/
theorem Regular.key_injective {c' : ObjectClass} (h : Regular t)
    (hc : t.classIndex? c = some first) (hc' : t.classIndex? c' = some first) : c.key = c'.key :=
  (h.showKey_classIndex hc).symm.trans (h.showKey_classIndex hc')

theorem Later.classIndex? (h : Later t t') (hc : t.classIndex? c = some first) :
    t'.classIndex? c = some first := by
  cases c with
  | root => exact hc
  | derived decl base => exact h.known _ _ hc

theorem Later.showKey (h : Later t t') {e : TypeInfo} (he : t.typeAt? i = some e) :
    t'.showKey i = t.showKey i := by
  obtain ⟨n, hn⟩ := h.types i e he
  simp [TypeTable.showKey, he, hn]

theorem Later.climbs (h : Later t t') {ancestor : Nat} :
    ∀ fuel child, t.climbs ancestor fuel child = true → t'.climbs ancestor fuel child = true := by
  intro fuel
  induction fuel with
  | zero => exact fun child hchild => hchild
  | succ fuel ih =>
      intro child hchild
      simp only [TypeTable.climbs] at hchild ⊢
      split
      · rename_i habove
        rw [if_pos habove] at hchild
        cases he : t.typeAt? child with
        | none => simp [he] at hchild
        | some e =>
            obtain ⟨n, hn⟩ := h.types child e he
            simp only [he] at hchild
            simp only [hn]
            exact ih e.parent hchild
      · rename_i habove
        rwa [if_neg habove] at hchild

/-- What descends from a type still does later. -/
theorem Later.derivedFrom (h : Later t t') {child ancestor : Nat}
    (hdesc : t.derivedFrom child ancestor = true) : t'.derivedFrom child ancestor = true :=
  h.climbs child child hdesc

theorem Later.isInstance (h : Later t t') (hi : t.isInstance i first c = true) :
    t'.isInstance i first c = true := by
  unfold TypeTable.isInstance at *
  split_ifs at hi ⊢ <;> first | rfl | exact hi | exact h.derivedFrom hi

/-! ## Questions that have been asked -/

/-- Asking to which of the classes a type belongs, up to the first one, looks up no new class. -/
def Answers (t : TypeTable) (i : Nat) : List ObjectClass → Prop
  | [] => True
  | c :: cs => ∃ first, t.classIndex? c = some first ∧
      (t.isInstance i first c = true ∨ t.Answers i cs)

theorem Later.answers (h : Later t t') (hcs : t.Answers i cs) : t'.Answers i cs := by
  induction cs with
  | nil => trivial
  | cons c cs ih =>
      obtain ⟨first, hc, hrest⟩ := hcs
      refine ⟨first, h.classIndex? hc, ?_⟩
      rcases hrest with hmember | hrest
      · exact .inl (h.isInstance hmember)
      · exact .inr (ih hrest)

end TypeTable

end ObjectRuntime
